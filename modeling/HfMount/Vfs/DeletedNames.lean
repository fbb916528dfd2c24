import HfMount.Vfs.DeleteWindow
import HfMount.Vfs.DirectoryRename
import HfMount.Vfs.LocalEntries
import HfMount.Vfs.LookupCalls

/-!
# Names whose delete is pending

With advanced writes an unlink queues the remote delete and takes the name out
of the inode table.  A dirty file that is renamed leaves its old path to the
commit that uploads it.  Until the Hub has done the delete, a listing or a HEAD
request still has the path, and nothing that brings paths into the table asks
the queue.
-/

namespace HfMount.Inode.InodeTable

open SlashPath Vfs

section

variable {table : InodeTable} {info : RenameInfo} {request : RenameRequest}

/-- The old paths that a rename leaves on the inodes it moves. -/
def owedPaths (table : InodeTable) (info : RenameInfo) : List Path :=
  (if info.isDirty && info.kind = .file && info.xetHash.isSome then
    [info.oldPath] else []) ++
  if info.kind = .directory then
    (table.childrenBelow info.ino).filterMap fun child =>
      ((table.get child).filter (·.owesDelete)).map (·.fullPath)
  else []

/-- What is live after the source was moved is within its new path, or was
live before outside the source. -/
theorem Movable.mapped {entry newEntry : InodeEntry}
    (movable : table.Movable info request entry newEntry)
    (wf : table.WellFormed) (now : Time) {path : Path} {target : Ino}
    (mapped : (table.moveRenamed info request now).pathToInode path =
      some target) :
    Within info.newFullPath path ∨
      table.pathToInode path = some target ∧ ¬ table.Below info.ino target := by
  obtain ⟨_, recorded, moved, recordedDef, recordedWf, _, isMoved, result⟩ :=
    movable.moveRenamed wf now
  have owing : Corresponding InodeEntry.Owing table recorded :=
    recordedDef ▸ table.owing_record info
  have similar : table.Similar recorded :=
    owing.mono fun _ _ same => same.sameNode
  rw [result, (similar_touchRenamed moved info request now).path] at mapped
  rcases isMoved.path.mp mapped with ⟨below, lower, found, rfl⟩ |
    ⟨outside, unmoved⟩
  · left
    obtain ⟨noted, foundNoted, same⟩ := owing.forward movable.found
    have nonempty := wf.path_ne_nil movable.found movable.notRoot movable.live
    rw [← same.sameNode.fullPath] at nonempty ⊢
    exact within_rebase
      (recordedWf.below_within foundNoted nonempty below found) _
  · right
    rw [owing.path] at unmoved
    rw [Corresponding.below similar] at outside
    exact ⟨unmoved, outside⟩

theorem Applied.mapped {now : Time} {dropped : Option Ino}
    {after : InodeTable} (applied : Applied table info request now dropped after)
    (wf : table.WellFormed)
    (moves : table.renameMoves info request = true) {path : Path}
    {target : Ino} (mapped : after.pathToInode path = some target) :
    Within info.newFullPath path ∨
      table.pathToInode path = some target ∧ ¬ table.Below info.ino target := by
  cases applied with
  | sameInode looked same =>
      unfold renameMoves at moves
      simp [looked, same] at moves
  | free _ movable => exact movable.mapped wf now mapped
  | replaced _ _ pruned movable =>
      rcases movable.mapped (wf.pruned pruned) now mapped with
        within | ⟨unmoved, outside⟩
      · exact Or.inl within
      · obtain ⟨before, stays⟩ := pruned.path.mp unmoved
        exact Or.inr ⟨before, fun below =>
          outside (Pruned.below_of_kept pruned below stays)⟩

/-- A rename that gets past its checks succeeds. -/
theorem renameApplyLocal_of_moves
    (moves : table.renameMoves info request = true) (now : Time) :
    ∃ dropped after,
      table.renameApplyLocal info request now = .ok (dropped, after) := by
  unfold renameMoves at moves
  unfold renameApplyLocal
  cases found : table.get info.ino with
  | none => simp [found] at moves
  | some entry =>
      cases looked : table.lookupChild request.newparent request.newname with
      | none => exact ⟨_, _, rfl⟩
      | some existing =>
          simp only [found, looked, Option.isSome_some, Bool.true_and,
            Bool.and_eq_true, decide_eq_true_eq,
            Option.isNone_iff_eq_none] at moves
          obtain ⟨different, allowed⟩ := moves
          simp only [different, if_false, allowed]
          exact ⟨_, _, rfl⟩

/-- The paths that a rename leaves behind are those of inodes that it moves. -/
theorem below_of_owed (wf : table.WellFormed)
    {src newParentEntry : InodeEntry}
    (current : table.Current info request src newParentEntry) {path : Path}
    (owed : path ∈ table.owedPaths info) {target : Ino}
    (mapped : table.pathToInode path = some target) :
    table.Below info.ino target := by
  unfold owedPaths at owed
  rcases List.mem_append.mp owed with own | lower
  · split at own
    · rw [List.mem_singleton.mp own] at mapped
      obtain rfl := current.oldPath target mapped
      exact .refl
    · cases own
  · split at lower
    · obtain ⟨child, isChild, owes⟩ := List.mem_filterMap.mp lower
      obtain ⟨entry, kept, rfl⟩ := Option.map_eq_some_iff.mp owes
      obtain ⟨found, _⟩ := Option.filter_eq_some_iff.mp kept
      unfold childrenBelow at isChild
      obtain ⟨dir, isDir, listed⟩ := List.mem_flatMap.mp isChild
      obtain ⟨below, _⟩ := List.mem_filter.mp isDir
      obtain ⟨member, inChildren, rfl⟩ := List.mem_map.mp listed
      cases foundDir : table.get dir with
      | none =>
          rw [foundDir] at inChildren
          cases inChildren
      | some dirEntry =>
          rw [foundDir] at inChildren
          obtain ⟨childEntry, isChild⟩ := wf.child foundDir inChildren
          obtain rfl := Option.some.inj (found.symm.trans isChild.found)
          have own := wf.path.mpr ⟨entry, found, isChild.live, rfl⟩
          obtain rfl := Option.some.inj (own.symm.trans mapped)
          exact (mem_descendants_below below).tail
            ⟨dirEntry, member.name, foundDir, inChildren⟩
    · cases lower

end

end HfMount.Inode.InodeTable

namespace HfMount.Flush.FlushManager

open SlashPath

/-- The path is queued, or in a batch whose Hub call has not ended well. -/
def Holds (fm : FlushManager) (path : Path) : Prop :=
  path ∈ fm.pendingDeletes ∨
    ∃ number batch, fm.batch number = some batch ∧ path ∈ batch.paths

def heldPaths (fm : FlushManager) : List Path :=
  fm.pendingDeletes ++ (List.range fm.nextBatch).flatMap fun number =>
    (fm.batch number).elim [] (·.paths)

/-- Every batch has a number that was given out. -/
def Numbered (fm : FlushManager) : Prop :=
  ∀ number batch, fm.batch number = some batch → number < fm.nextBatch

theorem mem_heldPaths {fm : FlushManager} (numbered : fm.Numbered)
    {path : Path} : path ∈ fm.heldPaths ↔ fm.Holds path := by
  unfold heldPaths Holds
  rw [List.mem_append, List.mem_flatMap]
  constructor
  · rintro (queued | ⟨number, _, inBatch⟩)
    · exact Or.inl queued
    · cases held : fm.batch number with
      | none =>
          rw [held] at inBatch
          cases inBatch
      | some batch =>
          rw [held] at inBatch
          exact Or.inr ⟨number, batch, held, inBatch⟩
  · rintro (queued | ⟨number, batch, held, inBatch⟩)
    · exact Or.inl queued
    · refine Or.inr ⟨number,
        List.mem_range.mpr (numbered number batch held), ?_⟩
      rw [held]
      exact inBatch

/-- A batch that moves on, or is dropped, holds nothing else. -/
theorem Numbered.update {fm : FlushManager} (numbered : fm.Numbered)
    {id : Nat} {held : DeleteBatch} (found : fm.batch id = some held)
    (replacement : Option DeleteBatch) : ∀ number batch,
      Function.update fm.batch id replacement number = some batch →
      number < fm.nextBatch := by
  intro number batch updated
  by_cases here : number = id
  · rw [here]
    exact numbered id held found
  · rw [Function.update_of_ne here] at updated
    exact numbered number batch updated

theorem holds_update {fm : FlushManager} {id : Nat} {held : DeleteBatch}
    (found : fm.batch id = some held) {replacement : Option DeleteBatch}
    (same : ∀ batch, replacement = some batch → batch.paths = held.paths)
    {path : Path} {number : Nat} {batch : DeleteBatch}
    (updated : Function.update fm.batch id replacement number = some batch)
    (inBatch : path ∈ batch.paths) :
    ∃ number batch, fm.batch number = some batch ∧ path ∈ batch.paths := by
  by_cases here : number = id
  · rw [here, Function.update_self] at updated
    rw [same batch updated] at inBatch
    exact ⟨id, held, found, inBatch⟩
  · rw [Function.update_of_ne here] at updated
    exact ⟨number, batch, updated, inBatch⟩

/-- Only a path that is queued becomes held. -/
theorem holds_step {fm next : FlushManager} {event : DeleteEvent}
    (numbered : fm.Numbered) (stepped : fm.step event = some next) :
    next.Numbered ∧ ∀ path, next.Holds path →
      fm.Holds path ∨ event = .enqueue path := by
  cases event with
  | enqueue path =>
      obtain rfl := Option.some.inj stepped
      refine ⟨numbered, ?_⟩
      rintro other (queued | inBatch)
      · rcases List.mem_append.mp queued with earlier | last
        · exact Or.inl (Or.inl earlier)
        · rw [List.mem_singleton.mp last]
          exact Or.inr rfl
      · exact Or.inl (Or.inr inBatch)
  | cancel path =>
      obtain rfl := Option.some.inj stepped
      refine ⟨numbered, ?_⟩
      rintro other (queued | inBatch)
      · exact Or.inl (Or.inl (List.mem_filter.mp queued).1)
      · exact Or.inl (Or.inr inBatch)
  | cancelPrefix start =>
      obtain rfl := Option.some.inj stepped
      refine ⟨numbered, ?_⟩
      rintro other (queued | inBatch)
      · exact Or.inl (Or.inl (List.mem_filter.mp queued).1)
      · exact Or.inl (Or.inr inBatch)
  | take =>
      obtain rfl := takeDeletes_eq_some stepped
      constructor
      · intro number batch taken
        dsimp only at taken ⊢
        by_cases here : number = fm.nextBatch
        · rw [here]
          exact Nat.lt_succ_self _
        · rw [Function.update_of_ne here] at taken
          exact Nat.lt_succ_of_lt (numbered number batch taken)
      · rintro path (queued | ⟨number, batch, taken, inBatch⟩)
        · cases queued
        · left
          dsimp only at taken
          by_cases here : number = fm.nextBatch
          · rw [here, Function.update_self] at taken
            obtain rfl := Option.some.inj taken
            exact Or.inl inBatch
          · rw [Function.update_of_ne here] at taken
            exact Or.inr ⟨number, batch, taken, inBatch⟩
  | hubStart id =>
      obtain ⟨paths, found, rfl⟩ := startHubCall_eq_some stepped
      refine ⟨numbered.update found _, ?_⟩
      rintro path (queued | ⟨number, batch, updated, inBatch⟩)
      · exact Or.inl (Or.inl queued)
      · refine Or.inl (Or.inr (holds_update found ?_ updated inBatch))
        intro other same
        obtain rfl := Option.some.inj same
        rfl
  | hubDone id succeeded =>
      obtain ⟨paths, found, rfl⟩ := finishHubCall_eq_some stepped
      refine ⟨numbered.update found _, ?_⟩
      rintro path (queued | ⟨number, batch, updated, inBatch⟩)
      · exact Or.inl (Or.inl queued)
      · refine Or.inl (Or.inr (holds_update found ?_ updated inBatch))
        intro other same
        cases succeeded with
        | true => cases same
        | false =>
            obtain rfl := Option.some.inj same
            rfl
  | requeue id =>
      obtain ⟨paths, found, rfl⟩ := requeue_eq_some stepped
      refine ⟨numbered.update found none, ?_⟩
      rintro path (queued | ⟨number, batch, updated, inBatch⟩)
      · left
        rcases List.mem_append.mp queued with earlier | failed
        · exact Or.inl earlier
        · exact Or.inr ⟨id, _, found, failed⟩
      · refine Or.inl (Or.inr (holds_update found ?_ updated inBatch))
        intro other same
        cases same

end HfMount.Flush.FlushManager

namespace HfMount.Vfs

open SlashPath Inode Poll Flush Transition

/-- `movedAway` are the paths that renames have left on their inodes and whose
commit has not ended, and `made` says whether the last local operation on a
path has made what is there. -/
structure AdvancedMount where
  mount : Mount
  negativeCache : NegativeCache
  lookups : Nat → Option LookupCall
  movedAway : List Path
  made : Path → Bool

/-- `call` is a phase of an unlink, a rename or a link, or a turn of the flush
loop; `other` stands for what polls, commits, evictions and `rmdir` do to the
table, and `committed` for the end of a commit that has deleted old paths.
`miss` and `forget` are changes of the negative cache. -/
inductive AdvancedEvent where
  | call (event : MountEvent)
  | other (op : TableOp)
  | create (parent : Ino) (name : Name) (kind : InodeKind)
      (size mode uid gid : Nat) (now : Time) (finish : FieldChange)
  | load (settings : ListingSettings) (listing : Listing) (parent : Ino)
      (now : Time)
  | lookup (id : Nat) (parent : Ino) (name : Name)
  | headFound (id : Nat) (settings : ListingSettings) (head : HeadFileInfo)
      (probed : Option Nat) (now : Time)
  | dirFound (id : Nat) (settings : ListingSettings) (now : Time)
  | notFound (id : Nat)
  | miss (path : Path) (now : Time)
  | forget (path : Path)
  | committed (paths : List Path)

namespace AdvancedMount

def new (remote : Remote) : AdvancedMount :=
  { mount := .new .new remote
    negativeCache := fun _ => none
    lookups := fun _ => none
    movedAway := []
    made := fun _ => false }

def table (state : AdvancedMount) : InodeTable := state.mount.vfs.table

def setTable (state : AdvancedMount) (table : InodeTable) : AdvancedMount :=
  { state with
    mount := { state.mount with vfs := { state.mount.vfs with table } } }

/-- The remote delete of the path is queued or in flight. -/
def Pending (state : AdvancedMount) (path : Path) : Prop :=
  state.mount.vfs.flushManager.Holds path ∨ path ∈ state.movedAway

/-- The paths whose remote delete is queued or in flight. -/
def pendingPaths (state : AdvancedMount) : List Path :=
  state.mount.vfs.flushManager.heldPaths ++ state.movedAway

/-- An unlink has queued the delete, and the local removal is still to come. -/
def Removing (state : AdvancedMount) (path : Path) : Prop :=
  ∃ id info, state.mount.call id = some (.unlinkQueued info) ∧
    info.needsRemoteDelete = true ∧ info.fullPath = path

/-! ## Steps -/

/-- What the next step of a call makes or takes away at the paths. -/
def madeAfter (state : AdvancedMount) (now : Time) : Call → Path → Bool
  | .unlinkQueued info, path =>
      if (state.table.lookupChild info.parent info.name).any
          (·.fullPath = path) then false
      else state.made path
  | .renameCancelled request info, path =>
      if state.table.renameMoves info request then
        if Within info.newFullPath path then true
        else if (state.table.get info.ino).any
            (Within ·.fullPath path) then false
        else state.made path
      else state.made path
  | .linkCancelled info, path =>
      if (state.mount.vfs.linkInsert info now).1 = none ∧
          path = info.newFullPath then true
      else state.made path
  | _, path => state.made path

def movedAwayAfter (state : AdvancedMount) : Call → List Path
  | .renameCancelled request info =>
      if state.table.renameMoves info request then
        state.movedAway ++ state.table.owedPaths info
      else state.movedAway
  | _ => state.movedAway

def stepCall (state : AdvancedMount) : MountEvent → Option AdvancedMount
  | .load _ => none
  | .advance id now =>
      (state.mount.call id).bind fun call =>
        (state.mount.advance id now).map fun mount =>
          { state with
            mount
            movedAway := state.movedAwayAfter call
            made := state.madeAfter now call }
  | event => (state.mount.step event).map fun mount => { state with mount }

/-- Only the calls that are events of their own bring paths into the table. -/
def bringsNoPath : TableOp → Bool
  | .insert _ _ _ _ _ _ _ _ _ _ _ | .unlinkOne _ _ _
  | .renameApplyLocal _ _ _ => false
  | .update _ _ | .removeOrphan _ | .remove _ | .removeRemoteFile _ _
  | .evictIfSafe _ | .evictBatchIfSafe _ => true

/-- `create`, `mkdir` and `symlink`; a new file cancels the delete of its
path. -/
def create (state : AdvancedMount) (parent : Ino) (name : Name)
    (kind : InodeKind) (size mode uid gid : Nat) (now : Time)
    (finish : FieldChange) : Option AdvancedMount :=
  match state.table.get parent with
  | none => none
  | some parentEntry =>
      let fullPath := childPath parentEntry.fullPath name
      match MountedTree.createLocal ⟨state.table, state.negativeCache⟩ parent
          name kind size mode uid gid now finish.change with
      | (.error _, _) => none
      | (.ok _, tree) =>
          let cancelled := if kind = .file then
              state.mount.vfs.flushManager.cancelDelete fullPath
            else state.mount.vfs.flushManager
          some { state with
            mount := { state.mount with
              vfs := { state.mount.vfs with
                table := tree.table
                flushManager := cancelled } }
            negativeCache := tree.negativeCache
            made := Function.update state.made fullPath true }

/-- The lookup returns. -/
def endLookup (state : AdvancedMount) (id : Nat) : AdvancedMount :=
  { state with lookups := Function.update state.lookups id none }

def step (state : AdvancedMount) : AdvancedEvent → Option AdvancedMount
  | .call event => state.stepCall event
  | .other op =>
      if bringsNoPath op then (state.table.applyOp op).map state.setTable
      else none
  | .create parent name kind size mode uid gid now finish =>
      state.create parent name kind size mode uid gid now finish
  | .load settings listing parent now => some (state.setTable
      (installListing settings listing parent now state.table).2)
  | .lookup id parent name =>
      match state.lookups id with
      | some _ => none
      | none => some { state with
          lookups := Function.update state.lookups id
            (lookupProbes state.table state.negativeCache parent name) }
  | .headFound id settings head probed now =>
      (state.lookups id).map fun call => (state.setTable
        (insertFileFromHead settings state.table call head probed
          now)).endLookup id
  | .dirFound id settings now =>
      ((state.lookups id).filter (·.listed)).map fun call => (state.setTable
        (insertDir settings state.table call now)).endLookup id
  | .notFound id => some (state.endLookup id)
  | .miss path now => some { state with
      negativeCache := Function.update state.negativeCache path (some now) }
  | .forget path => some { state with
      negativeCache := Function.update state.negativeCache path none }
  | .committed paths => some { state with
      movedAway := state.movedAway.filter (· ∉ paths) }

/-! ## What a step was given, and what it brings -/

/-- What a call has read still holds for the table that it changes. -/
def CallFits (table : InodeTable) (now : Time) : Call → Prop
  | .unlinkQueued info => table.Fits (.unlinkOne info.parent info.name now)
  | .renameCancelled request info =>
      table.Fits (.renameApplyLocal info request now) ∧
        ValidName request.newname ∧
        ∀ entry ∈ table.get request.newparent, entry.kind = .directory
  | .linkCancelled info =>
      ValidName info.newname ∧ ∀ entry ∈ table.get info.newparent,
        entry.kind = .directory ∧
          info.newFullPath = childPath entry.fullPath info.newname
  | _ => True

def Fits (state : AdvancedMount) : AdvancedEvent → Prop
  | .call (.advance id now) =>
      ∀ call ∈ state.mount.call id, CallFits state.table now call
  | .other op => state.table.Fits op
  | .create _ name _ _ _ _ _ _ _ => ValidName name
  | .load _ listing parent _ => listing.Fits state.table parent
  | .headFound id _ _ _ _ | .dirFound id _ _ =>
      ∀ call ∈ state.lookups id, call.Fits state.table
  | _ => True

/-- The path is live already, or was made locally. -/
def Accounted (state : AdvancedMount) (path : Path) : Prop :=
  (state.table.pathToInode path).isSome = true ∨ state.made path = true

/-- Where an unlink has queued the delete of a path, what is live at the path
is under the name that goes, or was made locally. -/
def CallSpares (state : AdvancedMount) : Call → Prop
  | .unlinkQueued info => info.needsRemoteDelete = true →
      (state.table.pathToInode info.fullPath).isSome = true →
      state.made info.fullPath = true ∨
        ∃ entry ∈ state.table.lookupChild info.parent info.name,
          entry.fullPath = info.fullPath
  | _ => True

/-- The step brings no path whose delete is queued or in flight. -/
def Spares (state : AdvancedMount) : AdvancedEvent → Prop
  | .call (.advance id _) =>
      ∀ call ∈ state.mount.call id, CallSpares state call
  | .load settings listing parent _ =>
      state.table.isChildrenLoaded parent = false →
      ∀ name ∈ listing.names settings,
        childPath listing.dir name ∈ state.pendingPaths →
        state.Accounted (childPath listing.dir name)
  | .headFound id _ _ _ _ | .dirFound id _ _ =>
      ∀ call ∈ state.lookups id, call.fullPath ∈ state.pendingPaths →
        state.Accounted call.fullPath
  | _ => True

instance (table : InodeTable) (now : Time) (call : Call) :
    Decidable (CallFits table now call) := by
  cases call <;> unfold CallFits <;> infer_instance

instance (state : AdvancedMount) (path : Path) :
    Decidable (state.Accounted path) :=
  inferInstanceAs (Decidable (_ ∨ _))

instance (state : AdvancedMount) (call : Call) :
    Decidable (CallSpares state call) := by
  cases call <;> unfold CallSpares <;> infer_instance

instance (state : AdvancedMount) (event : AdvancedEvent) :
    Decidable (state.Fits event) := by
  rcases event with call | _ | _ | _ | _ | _ | _ | _ | _ | _ | _
  · cases call <;> unfold Fits <;> infer_instance
  all_goals
    unfold Fits
    infer_instance

instance (state : AdvancedMount) (event : AdvancedEvent) :
    Decidable (state.Spares event) := by
  rcases event with call | _ | _ | _ | _ | _ | _ | _ | _ | _ | _
  · cases call <;> unfold Spares <;> infer_instance
  all_goals
    unfold Spares
    infer_instance

/-! ## What is live after a step -/

theorem pathsFrom_removeOrphan {added : Path → Prop} (table : InodeTable)
    (ino : Ino) : PathsFrom added table (table.removeOrphan ino) := by
  apply pathsFrom_of_shrunk
  unfold InodeTable.removeOrphan
  split
  · split
    · split
      · exact (shrunk_erase table ino).trans (shrunk_removePath _ _)
      · exact shrunk_erase table ino
    · exact .refl table
  · exact .refl table

theorem pathsFrom_evictIfSafe {added : Path → Prop} (table : InodeTable)
    (ino : Ino) : PathsFrom added table (table.evictIfSafe ino).2 := by
  unfold InodeTable.evictIfSafe
  split
  · exact .refl table
  split
  · apply PathsFrom.trans _ (pathsFrom_modify _ _ _)
    apply pathsFrom_of_shrunk
    exact (shrunk_erase table ino).trans (shrunk_removePath _ _)
  · exact .refl table

/-- The other operations bring no path into the table. -/
theorem pathsFrom_applyOp {added : Path → Prop} {table after : InodeTable}
    (order : table.InOrder) {op : TableOp} (quiet : bringsNoPath op = true)
    (applied : table.applyOp op = some after) :
    PathsFrom added table after := by
  cases op with
  | insert | unlinkOne | renameApplyLocal => cases quiet
  | update ino field =>
      obtain rfl := Option.some.inj applied
      exact pathsFrom_modify table ino field.change
  | removeOrphan ino =>
      obtain rfl := Option.some.inj applied
      exact pathsFrom_removeOrphan table ino
  | remove ino =>
      unfold InodeTable.applyOp at applied
      dsimp only at applied
      split at applied
      · cases applied
      · obtain rfl := Option.some.inj applied
        exact pathsFrom_of_shrunk (shrunk_remove table ino)
  | removeRemoteFile ino now =>
      unfold InodeTable.applyOp at applied
      dsimp only at applied
      split at applied
      · obtain rfl := Option.some.inj applied
        exact pathsFrom_of_shrunk (shrunk_removeRemoteFile table ino now)
      · cases applied
  | evictIfSafe ino =>
      obtain rfl := Option.some.inj applied
      exact pathsFrom_evictIfSafe table ino
  | evictBatchIfSafe inos =>
      obtain rfl := Option.some.inj applied
      exact pathsFrom_of_pruned
        (InodeTable.pruned_evictBatchIfSafe order.wf inos)

/-! ## Pending names stay hidden -/

/-- A path whose delete is queued or in flight is not live, unless it was made
again or the unlink is about to take it out. -/
structure Concealed (state : AdvancedMount) : Prop where
  order : state.table.InOrder
  numbered : state.mount.vfs.flushManager.Numbered
  hidden : ∀ path, state.Pending path → state.made path = true ∨
    state.Removing path ∨ state.table.pathToInode path = none

theorem concealed_new (remote : Remote) : (new remote).Concealed := by
  refine ⟨InodeTable.inOrder_new, nofun, ?_⟩
  rintro path ((queued | ⟨_, _, held, _⟩) | moved)
  · cases queued
  · cases held
  · cases moved

theorem mem_pendingPaths {state : AdvancedMount} (concealed : state.Concealed)
    {path : Path} : path ∈ state.pendingPaths ↔ state.Pending path := by
  unfold pendingPaths Pending
  rw [List.mem_append, FlushManager.mem_heldPaths concealed.numbered]

/-- A step that brings only paths that are accounted for. -/
theorem Concealed.carry {before after : AdvancedMount}
    (concealed : before.Concealed) (order : after.table.InOrder)
    (numbered : after.mount.vfs.flushManager.Numbered)
    (pending : ∀ path, after.Pending path →
      before.Pending path ∨ after.Removing path)
    (removing : ∀ path, before.Removing path → after.Removing path)
    (made : ∀ path, before.made path = true → after.made path = true)
    {added : Path → Prop} (paths : PathsFrom added before.table after.table)
    (spared : ∀ path, added path → before.Pending path →
      (before.table.pathToInode path).isSome = true ∨
        after.made path = true) : after.Concealed := by
  refine ⟨order, numbered, ?_⟩
  intro path isPending
  rcases pending path isPending with earlier | still
  · rcases concealed.hidden path earlier with isMade | goes | unmapped
    · exact Or.inl (made path isMade)
    · exact Or.inr (Or.inl (removing path goes))
    · by_cases isAdded : added path
      · rcases spared path isAdded earlier with mapped | isMade
        · rw [unmapped] at mapped
          cases mapped
        · exact Or.inl isMade
      · exact Or.inr (Or.inr (paths path unmapped isAdded))
  · exact Or.inr (Or.inl still)

/-- The step changes only the table, and brings only paths that are accounted
for. -/
theorem Concealed.setTable {state : AdvancedMount}
    (concealed : state.Concealed) {table : InodeTable} (order : table.InOrder)
    {added : Path → Prop} (paths : PathsFrom added state.table table)
    (spared : ∀ path, added path → path ∈ state.pendingPaths →
      state.Accounted path) : (state.setTable table).Concealed :=
  concealed.carry order concealed.numbered (fun _ => Or.inl) (fun _ => id)
    (fun _ => id) paths fun path isAdded pending =>
      spared path isAdded ((mem_pendingPaths concealed).mpr pending)

theorem Concealed.endLookup {state : AdvancedMount}
    (concealed : state.Concealed) (id : Nat) :
    (state.endLookup id).Concealed :=
  concealed.carry concealed.order concealed.numbered (fun _ => Or.inl)
    (fun _ held => held) (fun _ held => held)
    (@PathsFrom.refl (fun _ => False) _) fun _ => False.elim

/-! ## Events of the calls -/

/-- A turn of the flush loop, or a call that starts or is refused. -/
structure Quiet (before after : Mount) : Prop where
  table : after.vfs.table = before.vfs.table
  queued : ∀ id info, before.call id = some (.unlinkQueued info) →
    after.call id = some (.unlinkQueued info)
  numbered : before.vfs.flushManager.Numbered →
    after.vfs.flushManager.Numbered
  holds : before.vfs.flushManager.Numbered → ∀ path,
    after.vfs.flushManager.Holds path → before.vfs.flushManager.Holds path

/-- A call that has queued nothing moves on. -/
theorem queued_setCall {mount : Mount} {id : Nat}
    (notQueued : ∀ info, mount.call id ≠ some (.unlinkQueued info))
    (vfs : VirtualFs) (call : Call) {other : Nat} {info : UnlinkInfo}
    (found : mount.call other = some (.unlinkQueued info)) :
    (mount.setCall id vfs call).call other = some (.unlinkQueued info) := by
  have different : other ≠ id := by
    rintro rfl
    exact notQueued info found
  exact (Function.update_of_ne different _ _).trans found

theorem quiet_setCall {mount : Mount} {id : Nat}
    (notQueued : ∀ info, mount.call id ≠ some (.unlinkQueued info))
    {vfs : VirtualFs} (call : Call) (table : vfs.table = mount.vfs.table)
    (flushManager : mount.vfs.flushManager.Numbered →
      vfs.flushManager.Numbered ∧ ∀ path, vfs.flushManager.Holds path →
        mount.vfs.flushManager.Holds path) :
    Quiet mount (mount.setCall id vfs call) :=
  ⟨table, fun _ _ => queued_setCall notQueued vfs call,
    fun numbered => (flushManager numbered).1,
    fun numbered => (flushManager numbered).2⟩

theorem holds_cancelDelete {fm : FlushManager} (numbered : fm.Numbered)
    (path : Path) : (fm.cancelDelete path).Numbered ∧
      ∀ other, (fm.cancelDelete path).Holds other → fm.Holds other := by
  obtain ⟨still, holds⟩ :=
    @FlushManager.holds_step fm _ (.cancel path) numbered rfl
  exact ⟨still, fun other held => (holds other held).resolve_right nofun⟩

theorem holds_cancelDeletePrefix {fm : FlushManager} (numbered : fm.Numbered)
    (start : Path) : (fm.cancelDeletePrefix start).Numbered ∧
      ∀ other, (fm.cancelDeletePrefix start).Holds other → fm.Holds other := by
  obtain ⟨still, holds⟩ :=
    @FlushManager.holds_step fm _ (.cancelPrefix start) numbered rfl
  exact ⟨still, fun other held => (holds other held).resolve_right nofun⟩

theorem quiet_start {mount next : Mount} {id : Nat}
    {first : Except Errno Call} (started : mount.start id first = some next) :
    Quiet mount next := by
  unfold Mount.start at started
  split at started <;> rename_i free
  · cases started
  · obtain rfl := Option.some.inj started
    apply quiet_setCall _ _ rfl fun numbered =>
      ⟨numbered, fun _ held => held⟩
    simp [free]

theorem quiet_flush {mount : Mount} {flushManager : FlushManager}
    {event : DeleteEvent} (notQueued : ∀ path, event ≠ .enqueue path)
    (stepped : mount.vfs.flushManager.step event = some flushManager)
    (remote : Remote) : Quiet mount { mount with
      vfs := { mount.vfs with
        flushManager
        remote } } := by
  refine ⟨rfl, fun _ _ => id, ?_, ?_⟩
  · intro numbered
    exact (FlushManager.holds_step numbered stepped).1
  · intro numbered path holds
    rcases (FlushManager.holds_step numbered stepped).2 path holds with
      earlier | queued
    · exact earlier
    · exact absurd queued (notQueued path)

theorem quiet_step {mount next : Mount} {event : MountEvent}
    (notLoad : ∀ table, event ≠ .load table)
    (notAdvance : ∀ id now, event ≠ .advance id now)
    (stepped : mount.step event = some next) : Quiet mount next := by
  cases event with
  | unlink | rename | link => exact quiet_start stepped
  | advance id now => exact absurd rfl (notAdvance id now)
  | refused id errno =>
      unfold Mount.step Mount.refuse at stepped
      dsimp only at stepped
      split at stepped
      · rename_i request info found
        obtain rfl := Option.some.inj stepped
        apply quiet_setCall _ _ rfl fun numbered =>
          ⟨numbered, fun _ held => held⟩
        simp [found]
      · rename_i info found
        obtain rfl := Option.some.inj stepped
        apply quiet_setCall _ _ rfl fun numbered =>
          ⟨numbered, fun _ held => held⟩
        simp [found]
      · cases stepped
  | load table => exact absurd rfl (notLoad table)
  | take =>
      obtain ⟨flushManager, taken, rfl⟩ := Option.map_eq_some_iff.mp stepped
      exact @quiet_flush mount flushManager .take nofun taken mount.vfs.remote
  | hubStart batch =>
      obtain ⟨flushManager, started, rfl⟩ := Option.map_eq_some_iff.mp stepped
      exact @quiet_flush mount flushManager (.hubStart batch) nofun started
        mount.vfs.remote
  | hubDone batch succeeded =>
      obtain ⟨flushManager, ended, rfl⟩ := Option.map_eq_some_iff.mp stepped
      exact @quiet_flush mount flushManager (.hubDone batch succeeded) nofun
        ended _
  | requeue batch =>
      obtain ⟨flushManager, requeued, rfl⟩ := Option.map_eq_some_iff.mp stepped
      exact @quiet_flush mount flushManager (.requeue batch) nofun requeued
        mount.vfs.remote

theorem Concealed.quiet {state : AdvancedMount} {mount : Mount}
    (concealed : state.Concealed) (quiet : Quiet state.mount mount) :
    ({ state with mount } : AdvancedMount).Concealed := by
  have same : ({ state with mount } : AdvancedMount).table = state.table :=
    quiet.table
  have paths : PathsFrom (fun _ => False) state.table
      ({ state with mount } : AdvancedMount).table := by
    rw [same]
    exact .refl _
  apply concealed.carry _ (quiet.numbered concealed.numbered) _ _ _ paths
    fun _ => False.elim
  · rw [same]
    exact concealed.order
  · rintro path (holds | moved)
    · exact Or.inl (Or.inl (quiet.holds concealed.numbered path holds))
    · exact Or.inl (Or.inr moved)
  · rintro path ⟨id, info, found, needed⟩
    exact ⟨id, info, quiet.queued id info found, needed⟩
  · exact fun _ => id

/-! ## The steps of unlink, rename and link -/

/-- The unlink queues the delete. -/
theorem Concealed.unlinkEnqueue {state : AdvancedMount}
    (concealed : state.Concealed) {id : Nat} {info : UnlinkInfo}
    (found : state.mount.call id = some (.unlinkChecked info)) :
    ({ state with
      mount := state.mount.setCall id (state.mount.vfs.unlinkEnqueue info)
        (.unlinkQueued info) } : AdvancedMount).Concealed := by
  have notQueued : ∀ other, state.mount.call id ≠
      some (.unlinkQueued other) := by simp [found]
  unfold VirtualFs.unlinkEnqueue
  split <;> rename_i needed
  · obtain ⟨numbered, holds⟩ := @FlushManager.holds_step
      state.mount.vfs.flushManager _ (.enqueue info.fullPath)
      concealed.numbered rfl
    refine @Concealed.carry state _ concealed concealed.order numbered ?_ ?_
      (fun _ held => held) (fun _ => False) (.refl _) fun _ => False.elim
    · rintro path (held | moved)
      · rcases holds path held with earlier | queued
        · exact Or.inl (Or.inl earlier)
        · right
          refine ⟨id, info, Function.update_self _ _ _, needed, ?_⟩
          exact DeleteEvent.enqueue.inj queued
      · exact Or.inl (Or.inr moved)
    · rintro path ⟨other, otherInfo, isQueued, needs⟩
      exact ⟨other, otherInfo, queued_setCall notQueued _ _ isQueued, needs⟩
  · exact concealed.quiet (quiet_setCall notQueued _ rfl fun numbered =>
      ⟨numbered, fun _ held => held⟩)

/-- What is under the name is gone after the local part of the unlink. -/
theorem unlinkLocal_table {vfs : VirtualFs} (order : vfs.table.InOrder)
    {info : UnlinkInfo} {now : Time}
    (fits : vfs.table.Fits (.unlinkOne info.parent info.name now)) :
    (vfs.unlinkLocal info now).table.InOrder ∧
      PathsFrom (fun _ => False) vfs.table
        (vfs.unlinkLocal info now).table ∧
      ∀ entry, vfs.table.lookupChild info.parent info.name = some entry →
        (vfs.unlinkLocal info now).table.pathToInode entry.fullPath =
          none := by
  have unlinked := order.unlinkOne fits now
  have touched : ((vfs.table.unlinkOne info.parent info.name now).2.touchParent
      info.parent now).InOrder := by
    apply unlinked.update
    intro entry
    exact .of_fields rfl
  have rest : (vfs.unlinkLocal info now).table.InOrder ∧
      PathsFrom (fun _ => False)
        (vfs.table.unlinkOne info.parent info.name now).2
        (vfs.unlinkLocal info now).table := by
    have touches := @pathsFrom_modify (fun _ => False)
      (vfs.table.unlinkOne info.parent info.name now).2 info.parent
      fun entry => { entry with
        mtime := now
        ctime := now }
    unfold VirtualFs.unlinkLocal
    dsimp only
    split
    · exact ⟨touched.removeOrphan info.ino,
        touches.trans (pathsFrom_removeOrphan _ info.ino)⟩
    · exact ⟨touched, touches⟩
  refine ⟨rest.1, (pathsFrom_of_shrunk (shrunk_unlinkOne _ _ _ _)).trans
    rest.2, ?_⟩
  intro entry looked
  apply rest.2 entry.fullPath _ False.elim
  obtain ⟨_, _, _, isChild⟩ := order.wf.lookupChild.mp looked
  have own := order.wf.path.mpr ⟨entry, isChild.found, isChild.live, rfl⟩
  have pruned := InodeTable.pruned_unlinkOne order.wf looked
    (fits entry looked) now
  cases mapped : (vfs.table.unlinkOne info.parent info.name
      now).2.pathToInode entry.fullPath with
  | none => rfl
  | some target =>
      obtain ⟨before, stays⟩ := pruned.path.mp mapped
      rw [own] at before
      exact absurd (Option.some.inj before).symm stays

/-- The unlink takes the name out of the table. -/
theorem Concealed.unlinkLocal {state : AdvancedMount}
    (concealed : state.Concealed) {id : Nat} {info : UnlinkInfo} {now : Time}
    (found : state.mount.call id = some (.unlinkQueued info))
    (fits : state.table.Fits (.unlinkOne info.parent info.name now))
    (spares : CallSpares state (.unlinkQueued info)) :
    ({ state with
      mount := state.mount.setCall id
        (state.mount.vfs.unlinkLocal info now) (.returned none)
      made := state.madeAfter now (.unlinkQueued info) } :
        AdvancedMount).Concealed := by
  obtain ⟨order, paths, gone⟩ :=
    @unlinkLocal_table state.mount.vfs concealed.order info now fits
  have sameFlush : (state.mount.vfs.unlinkLocal info now).flushManager =
      state.mount.vfs.flushManager := by
    unfold VirtualFs.unlinkLocal
    dsimp only
    split <;> rfl
  refine ⟨order, ?_, ?_⟩
  · unfold Mount.setCall
    dsimp only
    rw [sameFlush]
    exact concealed.numbered
  intro path pending
  have earlier : state.Pending path := by
    rcases pending with held | moved
    · unfold Mount.setCall at held
      dsimp only at held
      rw [sameFlush] at held
      exact Or.inl held
    · exact Or.inr moved
  -- Either the path was under the name, or it is as it was.
  by_cases taken : ∃ entry, state.table.lookupChild info.parent info.name =
      some entry ∧ entry.fullPath = path
  · obtain ⟨entry, looked, rfl⟩ := taken
    exact Or.inr (Or.inr (gone entry looked))
  have sameMade : state.madeAfter now (.unlinkQueued info) path =
      state.made path := by
    apply if_neg
    intro isPath
    cases looked : state.table.lookupChild info.parent info.name with
    | none =>
        rw [looked] at isPath
        cases isPath
    | some entry =>
        rw [looked] at isPath
        exact taken ⟨entry, looked, of_decide_eq_true isPath⟩
  rcases concealed.hidden path earlier with isMade | goes | unmapped
  · exact Or.inl (sameMade.trans isMade)
  · obtain ⟨other, otherInfo, isQueued, needs, rfl⟩ := goes
    by_cases same : other = id
    · rw [same, found] at isQueued
      obtain rfl := Call.unlinkQueued.inj (Option.some.inj isQueued)
      cases mapped : state.table.pathToInode info.fullPath with
      | none => exact Or.inr (Or.inr (paths _ mapped False.elim))
      | some target =>
          rcases spares needs (by rw [mapped]; rfl) with
            isMade | ⟨entry, looked, isPath⟩
          · exact Or.inl (sameMade.trans isMade)
          · exact absurd ⟨entry, looked, isPath⟩ taken
    · exact Or.inr (Or.inl ⟨other, otherInfo,
        (Function.update_of_ne same _ _).trans isQueued, needs, rfl⟩)
  · exact Or.inr (Or.inr (paths path unmapped False.elim))

theorem removing_setCall {state : AdvancedMount} {id : Nat}
    (notQueued : ∀ info, state.mount.call id ≠ some (.unlinkQueued info))
    (vfs : VirtualFs) (call : Call) (movedAway : List Path)
    (made : Path → Bool) {path : Path} (removing : state.Removing path) :
    ({ state with
      mount := state.mount.setCall id vfs call
      movedAway
      made } : AdvancedMount).Removing path := by
  obtain ⟨other, info, found, needed⟩ := removing
  exact ⟨other, info, queued_setCall notQueued vfs call found, needed⟩

theorem renameApply_flushManager (vfs : VirtualFs) (info : RenameInfo)
    (request : RenameRequest) (now : Time) :
    (vfs.renameApply info request now).2.flushManager = vfs.flushManager := by
  unfold VirtualFs.renameApply
  split
  · rfl
  · split <;> rfl

/-- A rename that does not move anything may have the directories listed
again. -/
theorem renameApply_of_not_moves {vfs : VirtualFs}
    (order : vfs.table.InOrder) {info : RenameInfo} {request : RenameRequest}
    (stays : vfs.table.renameMoves info request = false) (now : Time) :
    (vfs.renameApply info request now).2.table.InOrder ∧
      PathsFrom (fun _ => False) vfs.table
        (vfs.renameApply info request now).2.table := by
  have invalidated : ∀ {table : InodeTable}, table.InOrder → ∀ ino,
      (table.invalidateChildren ino).InOrder := by
    intro table order ino
    apply order.update
    intro entry
    exact .of_fields rfl
  have paths : ∀ (table : InodeTable) (ino : Ino),
      PathsFrom (fun _ => False) table (table.invalidateChildren ino) :=
    fun table ino => pathsFrom_modify table ino _
  unfold VirtualFs.renameApply
  split <;> rename_i result
  · rw [InodeTable.renameApplyLocal_of_not_moves stays result]
    exact ⟨order, .refl _⟩
  split
  · dsimp only
    split
    · exact ⟨invalidated order _, paths _ _⟩
    · exact ⟨invalidated (invalidated order _) _,
        (paths _ _).trans (paths _ _)⟩
  · exact ⟨order, .refl _⟩

/-- The rename moves its source, or changes nothing that is live. -/
theorem Concealed.renameApply {state : AdvancedMount}
    (concealed : state.Concealed) {id : Nat} {request : RenameRequest}
    {info : RenameInfo} {now : Time}
    (found : state.mount.call id = some (.renameCancelled request info))
    (fits : CallFits state.table now (.renameCancelled request info)) :
    ({ state with
      mount := state.mount.setCall id
        (state.mount.vfs.renameApply info request now).2
        (.returned (state.mount.vfs.renameApply info request now).1)
      movedAway := state.movedAwayAfter (.renameCancelled request info)
      made := state.madeAfter now (.renameCancelled request info) } :
        AdvancedMount).Concealed := by
  have notQueued : ∀ other, state.mount.call id ≠
      some (.unlinkQueued other) := by simp [found]
  have sameFlush := renameApply_flushManager state.mount.vfs info request now
  have numbered : (state.mount.vfs.renameApply info request
      now).2.flushManager.Numbered := by
    rw [sameFlush]
    exact concealed.numbered
  cases moves : state.table.renameMoves info request with
  | false =>
      obtain ⟨order, paths⟩ := @renameApply_of_not_moves state.mount.vfs
        concealed.order info request moves now
      have notMoves : ¬ state.table.renameMoves info request = true := by
        rw [moves]
        exact Bool.false_ne_true
      have sameMoved : state.movedAwayAfter (.renameCancelled request info) =
          state.movedAway := if_neg notMoves
      refine @Concealed.carry state _ concealed order numbered ?_
        (fun _ => removing_setCall notQueued _ _ _ _) ?_ (fun _ => False) paths
        fun _ => False.elim
      · rintro path (held | moved)
        · change (state.mount.vfs.renameApply info request
            now).2.flushManager.Holds path at held
          rw [sameFlush] at held
          exact Or.inl (Or.inl held)
        · change path ∈ state.movedAwayAfter (.renameCancelled request info)
            at moved
          rw [sameMoved] at moved
          exact Or.inl (Or.inr moved)
      · intro path isMade
        have sameMade : state.madeAfter now (.renameCancelled request info)
            path = state.made path := if_neg notMoves
        exact sameMade.trans isMade
  | true =>
      obtain ⟨fit, valid, directory⟩ := fits
      obtain ⟨src, newParentEntry, current⟩ :=
        InodeTable.current_of_fits directory valid (fit moves)
      obtain ⟨dropped, after, ok⟩ :=
        InodeTable.renameApplyLocal_of_moves moves now
      have applied := current.applied concealed.order.wf ok
      have tableAfter : (state.mount.vfs.renameApply info request
          now).2.table = after := by
        unfold VirtualFs.renameApply
        change state.mount.vfs.table.renameApplyLocal info request now = _ at ok
        rw [ok]
      refine ⟨?_, numbered, ?_⟩
      · change (state.mount.vfs.renameApply info request now).2.table.InOrder
        rw [tableAfter]
        exact concealed.order.renameApplyLocal directory valid fit ok
      intro path pending
      change state.madeAfter now (.renameCancelled request info) path = true ∨
        _ ∨ (state.mount.vfs.renameApply info request
          now).2.table.pathToInode path = none
      rw [tableAfter]
      by_cases arrived : Within info.newFullPath path
      · exact Or.inl ((if_pos moves).trans (if_pos arrived))
      cases mapped : after.pathToInode path with
      | none => exact Or.inr (Or.inr rfl)
      | some target =>
          obtain ⟨before, outside⟩ := (applied.mapped concealed.order.wf moves
            mapped).resolve_left arrived
          have ino : info.ino = src.inode := current.ino
          obtain ⟨parentEntry, foundParent, listed, isChild⟩ :=
            concealed.order.wf.lookupChild.mp current.valid.looked
          have foundSrc : state.table.get info.ino = some src := by
            rw [ino]
            exact isChild.found
          -- What is still live was not at or below the source.
          have apart : ¬ (state.table.get info.ino).any
              (Within ·.fullPath path) = true := by
            rw [foundSrc]
            intro within
            obtain ⟨entry, foundEntry, live, rfl⟩ :=
              concealed.order.wf.path.mp before
            obtain ⟨_, notRoot, _⟩ :=
              concealed.order.wf.directory foundParent listed
            rw [← ino] at notRoot
            exact outside (concealed.order.wf.below_of_within foundSrc
              isChild.live (concealed.order.wf.path_ne_nil foundSrc notRoot
                isChild.live) foundEntry live (of_decide_eq_true within))
          have sameMade : state.madeAfter now (.renameCancelled request info)
              path = state.made path :=
            (if_pos moves).trans ((if_neg arrived).trans (if_neg apart))
          have earlier : state.Pending path := by
            rcases pending with held | moved
            · change (state.mount.vfs.renameApply info request
                now).2.flushManager.Holds path at held
              rw [sameFlush] at held
              exact Or.inl held
            · change path ∈ state.movedAwayAfter
                (.renameCancelled request info) at moved
              have appended : state.movedAwayAfter
                  (.renameCancelled request info) =
                    state.movedAway ++ state.table.owedPaths info :=
                if_pos moves
              rw [appended] at moved
              rcases List.mem_append.mp moved with earlier | owed
              · exact Or.inr earlier
              · exact absurd (InodeTable.below_of_owed concealed.order.wf
                  current owed before) outside
          rcases concealed.hidden path earlier with isMade | goes | unmapped
          · exact Or.inl (sameMade.trans isMade)
          · exact Or.inr (Or.inl (removing_setCall notQueued _ _ _ _ goes))
          · rw [before] at unmapped
            cases unmapped

/-- The link inserts its alias, unless the name was taken in the meantime. -/
theorem linkInsert_table {vfs : VirtualFs} (order : vfs.table.InOrder)
    {info : LinkInfo} {now : Time}
    (fits : CallFits vfs.table now (.linkCancelled info)) :
    (vfs.linkInsert info now).2.flushManager = vfs.flushManager ∧
      (vfs.linkInsert info now).2.table.InOrder ∧
      PathsFrom
        (fun path => (vfs.linkInsert info now).1 = none ∧
          path = info.newFullPath)
        vfs.table (vfs.linkInsert info now).2.table := by
  unfold VirtualFs.linkInsert
  split <;> rename_i missing
  · exact ⟨rfl, order, .refl _⟩
  split
  · exact ⟨rfl, order, .refl _⟩
  obtain ⟨entry, found⟩ : ∃ entry,
      vfs.table.get info.newparent = some entry := by
    apply Option.ne_none_iff_exists'.mp
    simpa using missing
  obtain ⟨directory, here⟩ := fits.2 entry found
  have inserted := order.insert found directory fits.1 (fun _ => here) .file
    info.source.size now (some info.source.xetHash) info.source.mode
    info.source.uid info.source.gid now
  have paths := @pathsFrom_insert (· = info.newFullPath) vfs.table
    info.newparent info.newname info.newFullPath rfl .file info.source.size now
    (some info.source.xetHash) info.source.mode info.source.uid
    info.source.gid now
  dsimp only
  refine ⟨rfl, ?_, ?_⟩
  · apply InodeTable.InOrder.update
    · split
      · apply inserted.update
        intro entry
        exact .of_fields rfl
      · exact inserted
    · intro entry
      exact .of_fields rfl
  · apply PathsFrom.mono _ fun path same => ⟨rfl, same⟩
    apply PathsFrom.trans _ (pathsFrom_modify _ _ _)
    split
    · exact paths.trans (pathsFrom_modify _ _ _)
    · exact paths

theorem Concealed.linkInsert {state : AdvancedMount}
    (concealed : state.Concealed) {id : Nat} {info : LinkInfo} {now : Time}
    (found : state.mount.call id = some (.linkCancelled info))
    (fits : CallFits state.table now (.linkCancelled info)) :
    ({ state with
      mount := state.mount.setCall id
        (state.mount.vfs.linkInsert info now).2
        (.returned (state.mount.vfs.linkInsert info now).1)
      made := state.madeAfter now (.linkCancelled info) } :
        AdvancedMount).Concealed := by
  have notQueued : ∀ other, state.mount.call id ≠
      some (.unlinkQueued other) := by simp [found]
  obtain ⟨sameFlush, order, paths⟩ :=
    @linkInsert_table state.mount.vfs concealed.order info now fits
  refine @Concealed.carry state _ concealed order ?_ ?_
    (fun _ => removing_setCall notQueued _ _ _ _) ?_ _ paths ?_
  · change (state.mount.vfs.linkInsert info now).2.flushManager.Numbered
    rw [sameFlush]
    exact concealed.numbered
  · rintro path (held | moved)
    · change (state.mount.vfs.linkInsert info now).2.flushManager.Holds path
        at held
      rw [sameFlush] at held
      exact Or.inl (Or.inl held)
    · exact Or.inl (Or.inr moved)
  · intro path isMade
    by_cases arrived : (state.mount.vfs.linkInsert info now).1 = none ∧
        path = info.newFullPath
    · have making : state.madeAfter now (.linkCancelled info) path = true :=
        if_pos arrived
      exact making
    · have sameMade : state.madeAfter now (.linkCancelled info) path =
          state.made path := if_neg arrived
      exact sameMade.trans isMade
  · intro path isAdded _
    exact Or.inr (if_pos isAdded)

/-- One step of a call. -/
theorem Concealed.advance {state next : AdvancedMount}
    (concealed : state.Concealed) {id : Nat} {now : Time}
    (fits : state.Fits (.call (.advance id now)))
    (spares : state.Spares (.call (.advance id now)))
    (stepped : state.stepCall (.advance id now) = some next) :
    next.Concealed := by
  obtain ⟨call, found, rest⟩ := Option.bind_eq_some_iff.mp stepped
  obtain ⟨mount, advanced, rfl⟩ := Option.map_eq_some_iff.mp rest
  unfold Mount.advance at advanced
  rw [found, Option.bind_some] at advanced
  have fit := fits call found
  have spare := spares call found
  cases call with
  | unlinkChecked info =>
      obtain rfl := Option.some.inj advanced
      exact concealed.unlinkEnqueue found
  | unlinkQueued info =>
      obtain rfl := Option.some.inj advanced
      exact concealed.unlinkLocal found fit spare
  | renameValidated request info =>
      obtain rfl := Option.some.inj advanced
      exact concealed.quiet (quiet_setCall (by simp [found]) _ rfl
        fun numbered => ⟨numbered, fun _ held => held⟩)
  | renameChecked request info =>
      obtain rfl := Option.some.inj advanced
      exact concealed.quiet (quiet_setCall (by simp [found]) _ rfl
        fun numbered => ⟨numbered, fun _ held => held⟩)
  | renameSent request info =>
      obtain rfl := Option.some.inj advanced
      refine concealed.quiet (quiet_setCall (by simp [found]) _ rfl ?_)
      intro numbered
      obtain ⟨cancelled, holds⟩ := holds_cancelDelete numbered info.newFullPath
      unfold VirtualFs.renameCancel
      dsimp only
      split
      · obtain ⟨below, holdsBelow⟩ := holds_cancelDeletePrefix cancelled
          (info.newFullPath ++ ['/'])
        exact ⟨below, fun path held => holds path (holdsBelow path held)⟩
      · exact ⟨cancelled, holds⟩
  | renameCancelled request info =>
      obtain rfl := Option.some.inj advanced
      exact concealed.renameApply found fit
  | linkValidated info =>
      obtain rfl := Option.some.inj advanced
      exact concealed.quiet (quiet_setCall (by simp [found]) _ rfl
        fun numbered => ⟨numbered, fun _ held => held⟩)
  | linkSent info =>
      obtain rfl := Option.some.inj advanced
      exact concealed.quiet (quiet_setCall (by simp [found]) _ rfl
        fun numbered => holds_cancelDelete numbered info.newFullPath)
  | linkCancelled info =>
      obtain rfl := Option.some.inj advanced
      exact concealed.linkInsert found fit
  | returned errno => cases advanced

theorem Concealed.stepCall {state next : AdvancedMount}
    (concealed : state.Concealed) {event : MountEvent}
    (fits : state.Fits (.call event)) (spares : state.Spares (.call event))
    (stepped : state.stepCall event = some next) : next.Concealed := by
  have others : (∀ table, event ≠ .load table) →
      (∀ id now, event ≠ .advance id now) →
      (state.mount.step event).map (fun mount => { state with mount }) =
        some next → next.Concealed := by
    intro notLoad notAdvance mapped
    obtain ⟨mount, ran, rfl⟩ := Option.map_eq_some_iff.mp mapped
    exact concealed.quiet (quiet_step notLoad notAdvance ran)
  cases event with
  | advance id now => exact concealed.advance fits spares stepped
  | load table => cases stepped
  | unlink | rename | link | refused | take | hubStart | hubDone | requeue =>
      exact others nofun nofun stepped

/-! ## The other events -/

/-- A new local name is accounted for. -/
theorem Concealed.create {state next : AdvancedMount}
    (concealed : state.Concealed) {parent : Ino} {name : Name}
    {kind : InodeKind} {size mode uid gid : Nat} {now : Time}
    {finish : FieldChange} (valid : ValidName name)
    (created : state.create parent name kind size mode uid gid now finish =
      some next) : next.Concealed := by
  unfold AdvancedMount.create at created
  split at created <;> rename_i found
  · cases created
  rename_i parentEntry
  unfold MountedTree.createLocal at created
  dsimp only at created
  rw [found] at created
  dsimp only at created
  split at created <;> rename_i result
  · cases created
  split at result <;> rename_i directory
  · cases result
  split at result
  · cases result
  obtain ⟨_, rfl⟩ := Prod.mk.inj result
  obtain rfl := Option.some.inj created
  have isDirectory := not_not.mp directory
  have inserted := concealed.order.insert found isDirectory valid
    (fun _ => rfl) kind size now none mode uid gid now
  refine @Concealed.carry state _ concealed ?_ ?_ ?_ (fun _ held => held) ?_
    (· = childPath parentEntry.fullPath name) ?_ ?_
  · apply InodeTable.InOrder.update
    · exact inserted.update _ finish.same
    · intro entry
      exact .of_fields rfl
  · dsimp only
    split
    · exact (holds_cancelDelete concealed.numbered _).1
    · exact concealed.numbered
  · rintro path (held | moved)
    · dsimp only at held
      split at held
      · exact Or.inl (Or.inl
          ((holds_cancelDelete concealed.numbered _).2 path held))
      · exact Or.inl (Or.inl held)
    · exact Or.inl (Or.inr moved)
  · intro path isMade
    dsimp only
    by_cases same : path = childPath parentEntry.fullPath name
    · rw [same]
      exact Function.update_self _ _ _
    · exact (Function.update_of_ne same _ _).trans isMade
  · apply PathsFrom.trans _ (pathsFrom_modify _ _ _)
    apply PathsFrom.trans _ (pathsFrom_modify _ _ _)
    apply pathsFrom_insert
    rfl
  · rintro path rfl _
    exact Or.inr (Function.update_self _ _ _)

theorem Concealed.load {state : AdvancedMount} (concealed : state.Concealed)
    {settings : ListingSettings} {listing : Listing} {parent : Ino}
    {now : Time}
    (fits : state.Fits (.load settings listing parent now))
    (spares : state.Spares (.load settings listing parent now)) :
    (state.setTable (installListing settings listing parent now
      state.table).2).Concealed := by
  obtain ⟨order, _⟩ := @keeps_installListing settings listing parent now
    state.table concealed.order fits
  cases loaded : state.table.isChildrenLoaded parent with
  | true =>
      rcases installListing_cases settings listing parent now state.table with
        same | ⟨_, unloaded, _⟩
      · apply concealed.setTable order (PathsFrom.of_eq (congrArg _ same))
        exact fun _ => False.elim
      · rw [loaded] at unloaded
        cases unloaded
  | false =>
      apply concealed.setTable order (pathsFrom_installListing _ _ _)
      rintro path ⟨name, listed, rfl⟩ pending
      exact spares loaded name listed pending

theorem Concealed.step {state next : AdvancedMount} {event : AdvancedEvent}
    (concealed : state.Concealed)
    (good : state.Fits event ∧ state.Spares event)
    (stepped : state.step event = some next) : next.Concealed := by
  obtain ⟨fits, spares⟩ := good
  cases event with
  | call event => exact concealed.stepCall fits spares stepped
  | other op =>
      unfold AdvancedMount.step at stepped
      dsimp only at stepped
      split at stepped <;> rename_i quiet
      · obtain ⟨table, applied, rfl⟩ := Option.map_eq_some_iff.mp stepped
        exact concealed.setTable (concealed.order.applyOp fits applied)
          (pathsFrom_applyOp concealed.order quiet applied)
          fun _ => False.elim
      · cases stepped
  | create parent name kind size mode uid gid now finish =>
      exact concealed.create fits stepped
  | load settings listing parent now =>
      obtain rfl := Option.some.inj stepped
      exact concealed.load fits spares
  | lookup id parent name =>
      unfold AdvancedMount.step at stepped
      dsimp only at stepped
      split at stepped
      · cases stepped
      · obtain rfl := Option.some.inj stepped
        exact ⟨concealed.order, concealed.numbered, concealed.hidden⟩
  | headFound id settings head probed now =>
      obtain ⟨call, found, rfl⟩ := Option.map_eq_some_iff.mp stepped
      apply Concealed.endLookup
      apply concealed.setTable
        (inOrder_insertFileFromHead concealed.order (fits call found) head
          probed)
        (pathsFrom_insertFileFromHead state.table call head probed)
      rintro path rfl pending
      exact spares call found pending
  | dirFound id settings now =>
      obtain ⟨call, kept, rfl⟩ := Option.map_eq_some_iff.mp stepped
      have found := (Option.filter_eq_some_iff.mp kept).1
      apply Concealed.endLookup
      apply concealed.setTable
        (inOrder_insertDir concealed.order (fits call found))
        (pathsFrom_insertDir state.table call)
      rintro path rfl pending
      exact spares call found pending
  | notFound id =>
      obtain rfl := Option.some.inj stepped
      exact concealed.endLookup id
  | miss path now =>
      obtain rfl := Option.some.inj stepped
      exact ⟨concealed.order, concealed.numbered, concealed.hidden⟩
  | forget path =>
      obtain rfl := Option.some.inj stepped
      exact ⟨concealed.order, concealed.numbered, concealed.hidden⟩
  | committed paths =>
      obtain rfl := Option.some.inj stepped
      refine ⟨concealed.order, concealed.numbered, ?_⟩
      rintro path (held | moved)
      · exact concealed.hidden path (Or.inl held)
      · exact concealed.hidden path (Or.inr (List.mem_filter.mp moved).1)

/-! ## Deleted names over whole runs -/

/-- No inode is live at the path, and no directory finds or lists its name. -/
structure Hidden (table : InodeTable) (path : Path) : Prop where
  unmapped : table.pathToInode path = none
  dead : ∀ ino entry, table.get ino = some entry → entry.isLive = true →
    entry.fullPath ≠ path
  unfound : ∀ dir dirEntry name, table.get dir = some dirEntry →
    childPath dirEntry.fullPath name = path →
    table.lookupChild dir name = none
  unlisted : ∀ dir dirEntry, table.get dir = some dirEntry →
    ∀ child ∈ dirEntry.children, childPath dirEntry.fullPath child.name ≠ path

theorem hidden_of_unmapped {table : InodeTable} (wf : table.WellFormed)
    {path : Path} (unmapped : table.pathToInode path = none) :
    Hidden table path := by
  have dead : ∀ ino entry, table.get ino = some entry →
      entry.isLive = true → entry.fullPath ≠ path := by
    intro ino entry found live same
    have mapped := wf.path.mpr ⟨entry, found, live, same⟩
    rw [unmapped] at mapped
    cases mapped
  have unlisted : ∀ dir dirEntry, table.get dir = some dirEntry →
      ∀ child ∈ dirEntry.children,
        childPath dirEntry.fullPath child.name ≠ path := by
    intro dir dirEntry found child listed same
    obtain ⟨entry, isChild⟩ := wf.child found listed
    exact dead child.ino entry isChild.found isChild.live
      (isChild.fullPath.trans same)
  refine ⟨unmapped, dead, ?_, unlisted⟩
  intro dir dirEntry name found same
  cases looked : table.lookupChild dir name with
  | none => rfl
  | some entry =>
      obtain ⟨again, foundAgain, listed, _⟩ := wf.lookupChild.mp looked
      obtain rfl := Option.some.inj (found.symm.trans foundAgain)
      exact absurd same (unlisted dir dirEntry found _ listed)

/-- When no answer of the Hub brings it back, a deleted name stays hidden until
its delete has been done. -/
theorem hidden_of_pending {remote : Remote} {events : List AdvancedEvent}
    {final : AdvancedMount}
    (good : AllSteps step (fun state event => state.Fits event ∧
      state.Spares event) (new remote) events)
    (ran : exec step (new remote) events = some final) {path : Path}
    (pending : final.Pending path) (notMade : final.made path = false)
    (removed : ¬ final.Removing path) : Hidden final.table path := by
  have concealed : final.Concealed := by
    apply exec_invariant _ (concealed_new remote) good ran
    exact fun _ _ _ concealed good stepped => concealed.step good stepped
  apply hidden_of_unmapped concealed.order.wf
  rcases concealed.hidden path pending with isMade | goes | unmapped
  · rw [notMade] at isMade
    cases isMade
  · exact absurd goes removed
  · exact unmapped

/-- A load of the root whose listing has these files. -/
def loadRoot (names : List Name) (now : Time) : AdvancedEvent :=
  .load ⟨false, 0, 493, 420, 0, 0⟩
    ⟨[], names.map fun name => ⟨name, .file, some 1, some name, none, none⟩,
      fun _ => none⟩ rootInode now

def oneRemote : Remote := fun path => if path = ['a'] then some ['a'] else none

/-- The only file is unlinked, and the delete waits for the flush loop. -/
def unlinked : List AdvancedEvent :=
  [loadRoot [['a']] 1,
    .call (.unlink 0 rootInode ['a']),
    .call (.advance 0 2),
    .call (.advance 0 2),
    .miss ['a'] 2]

/-- Another name is looked up, and the Hub does not have it. -/
def missing : List AdvancedEvent :=
  [.forget ['a'], .lookup 0 rootInode ['b'], .notFound 0]

theorem hidden_of_pending_missing :
    Hidden ((exec step (new oneRemote) (unlinked ++ missing)).get
      (by decide)).table ['a'] := by
  apply @hidden_of_pending oneRemote (unlinked ++ missing) _ (by decide)
    (Option.some_get _).symm ['a'] _ (by decide) _
  · exact Or.inl (Or.inl (by decide))
  · rintro ⟨id, info, queued, _⟩
    cases id <;> cases queued

/-- The answers of the Hub are files that the remote holds. -/
def Answered (state : AdvancedMount) : AdvancedEvent → Prop
  | .load _ listing _ _ => ∀ entry ∈ listing.entries,
      entry.entryType = .file ∧ entry.xetHash.isSome = true ∧
        state.mount.vfs.remote entry.path = entry.xetHash
  | .headFound id _ head _ _ => ∀ call ∈ state.lookups id,
      head.xetHash.isSome = true ∧
        state.mount.vfs.remote call.fullPath = head.xetHash
  | .dirFound _ _ _ => False
  | _ => True

instance (state : AdvancedMount) : ∀ event, Decidable (state.Answered event)
  | .load _ listing _ _ => inferInstanceAs (Decidable
      (∀ entry ∈ listing.entries, _))
  | .headFound id _ _ _ _ => inferInstanceAs (Decidable
      (∀ call ∈ state.lookups id, _))
  | .dirFound _ _ _ => isFalse id
  | .call _ | .other _ | .create _ _ _ _ _ _ _ _ _ | .lookup _ _ _
  | .notFound _ | .miss _ _ | .forget _ | .committed _ => isTrue trivial

/-- The root is listed again while the delete is queued. -/
def listedAgain : List AdvancedEvent :=
  [.forget ['a'], .other (.update rootInode MountedTree.invalidated),
    loadRoot [['a']] 3]

/-- The listing still has the file, and the name is back. -/
theorem not_hidden_of_pending : ¬ ∀ (remote : Remote)
    (events : List AdvancedEvent) (final : AdvancedMount) (path : Path),
    AllSteps step (fun state event => state.Fits event ∧
      state.Answered event) (new remote) events →
    exec step (new remote) events = some final → final.Pending path →
    final.made path = false → ¬ final.Removing path →
    Hidden final.table path := by
  intro claim
  have hidden := claim oneRemote (unlinked ++ listedAgain)
    ((exec step (new oneRemote) (unlinked ++ listedAgain)).get (by decide))
    ['a'] (by decide) (Option.some_get _).symm
    (Or.inl (Or.inl (by decide))) (by decide) (by
      rintro ⟨id, info, queued, _⟩
      cases id <;> cases queued)
  have live : ((exec step (new oneRemote) (unlinked ++ listedAgain)).get
      (by decide)).table.pathToInode ['a'] = some 3 := by decide
  rw [hidden.unmapped] at live
  cases live

end AdvancedMount

end HfMount.Vfs
