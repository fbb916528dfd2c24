import HfMount.Inode.Subtree
import HfMount.Poll.Diff

/-!
# Splitting a batch of the live feed

A batch drops the listings of directories at its end, while its changes of
files are applied one by one.  No change of a file looks at a listing, so a
batch that is cut in two leaves the same table: on the way, one table only lags
behind in the listings that the first half has dropped already.
-/

namespace HfMount.Poll

open SlashPath Inode

/-- The entry with another change time, and without its listing where that is
stale. -/
def behind (stale : Bool) (time : Time) (entry : InodeEntry) : InodeEntry :=
  { entry with
    ctime := time
    childrenLoadedAt := if stale then none else entry.childrenLoadedAt }

/-- The second table has the entries of the first, without the listings of the
stale directories, whatever the clock said. -/
structure Behind (stale : List Ino) (left right : InodeTable) : Prop where
  missing : ∀ {ino}, left.get ino = none → right.get ino = none
  entry : ∀ {ino entry}, left.get ino = some entry →
    ∃ time, right.get ino = some (behind (ino ∈ stale) time entry)
  paths : right.pathToInode = left.pathToInode
  nextInode : right.nextInode = left.nextInode
  touchCounter : right.touchCounter = left.touchCounter

/-- The tables differ at most in what the clock said. -/
structure SameButClock (left right : InodeTable) : Prop where
  entries : ∀ ino,
    (right.get ino).map (fun entry => { entry with ctime := 0 }) =
      (left.get ino).map fun entry => { entry with ctime := 0 }
  paths : right.pathToInode = left.pathToInode
  nextInode : right.nextInode = left.nextInode
  touchCounter : right.touchCounter = left.touchCounter

namespace Behind

variable {stale : List Ino} {left right : InodeTable}

theorem refl (table : InodeTable) : Behind [] table table :=
  { missing := id
    entry := fun found => ⟨_, found⟩
    paths := rfl
    nextInode := rfl
    touchCounter := rfl }

theorem get (lag : Behind stale left right) (ino : Ino) :
    (left.get ino = none ∧ right.get ino = none) ∨
      ∃ entry time, left.get ino = some entry ∧
        right.get ino = some (behind (ino ∈ stale) time entry) := by
  cases found : left.get ino with
  | none => exact Or.inl ⟨rfl, lag.missing found⟩
  | some entry =>
      obtain ⟨time, other⟩ := lag.entry found
      exact Or.inr ⟨entry, time, rfl, other⟩

/-- What neither the clock nor a listing decides is the same. -/
theorem map_get (lag : Behind stale left right) {α : Type}
    (view : InodeEntry → α)
    (steady : ∀ stale time entry, view (behind stale time entry) = view entry)
    (ino : Ino) :
    (right.get ino).map view = (left.get ino).map view := by
  rcases lag.get ino with ⟨leftMissing, rightMissing⟩ |
    ⟨entry, time, foundLeft, foundRight⟩
  · rw [leftMissing, rightMissing]
  · rw [foundLeft, foundRight, Option.map_some, Option.map_some, steady]

theorem hasOpenHandles (lag : Behind stale left right) (ino : Ino) :
    right.hasOpenHandles ino = left.hasOpenHandles ino := by
  rcases lag.get ino with ⟨leftMissing, rightMissing⟩ |
    ⟨entry, time, foundLeft, foundRight⟩
  · simp [InodeTable.hasOpenHandles, leftMissing, rightMissing]
  · simp [InodeTable.hasOpenHandles, foundLeft, foundRight, behind,
      InodeEntry.hasOpenHandles]

/-- A stale directory counts as not loaded. -/
theorem isChildrenLoaded (lag : Behind stale left right) (ino : Ino) :
    right.isChildrenLoaded ino =
      (left.isChildrenLoaded ino && decide (ino ∉ stale)) := by
  rcases lag.get ino with ⟨leftMissing, rightMissing⟩ |
    ⟨entry, time, foundLeft, foundRight⟩
  · simp [InodeTable.isChildrenLoaded, leftMissing, rightMissing]
  · by_cases member : ino ∈ stale
    · simp [InodeTable.isChildrenLoaded, foundLeft, foundRight, behind,
        InodeEntry.childrenLoaded, member]
    · simp [InodeTable.isChildrenLoaded, foundLeft, foundRight, behind,
        InodeEntry.childrenLoaded, member]

theorem getByPath (lag : Behind stale left right) (path : Path) :
    (left.getByPath path = none ∧ right.getByPath path = none) ∨
      ∃ entry stale time, left.getByPath path = some entry ∧
        right.getByPath path = some (behind stale time entry) := by
  unfold InodeTable.getByPath
  rw [lag.paths]
  cases left.pathToInode path with
  | none => simp
  | some ino =>
      rcases lag.get ino with ⟨leftMissing, rightMissing⟩ |
        ⟨entry, time, foundLeft, foundRight⟩
      · exact Or.inl ⟨leftMissing, rightMissing⟩
      · exact Or.inr ⟨entry, _, time, foundLeft, foundRight⟩

theorem getDirIno (lag : Behind stale left right) (path : Path) :
    right.getDirIno path = left.getDirIno path := by
  unfold InodeTable.getDirIno
  rcases lag.getByPath path with ⟨leftMissing, rightMissing⟩ |
    ⟨entry, stale, time, foundLeft, foundRight⟩
  · rw [leftMissing, rightMissing]
  · rw [foundLeft, foundRight, Option.filter_some, Option.filter_some]
    by_cases directory : entry.kind = .directory
    · simp [behind, directory]
    · simp [behind, directory]

theorem nearestDirAncestor (lag : Behind stale left right) (path : Path) :
    right.nearestDirAncestor path = left.nearestDirAncestor path := by
  unfold InodeTable.nearestDirAncestor
  generalize path.length + 1 = bound
  induction bound generalizing path with
  | zero => simp [InodeTable.nearestDirAncestorFrom]
  | succ bound ih =>
      simp only [InodeTable.nearestDirAncestorFrom, lag.getDirIno, ih]

/-! ## Changes of the table -/

theorem put (lag : Behind stale left right) (ino : Ino) (entry : InodeEntry)
    (time : Time) :
    Behind stale (left.put ino entry)
      (right.put ino (behind (ino ∈ stale) time entry)) := by
  refine ⟨?_, ?_, lag.paths, lag.nextInode, lag.touchCounter⟩
  · intro other missing
    rw [InodeTable.get_put] at missing ⊢
    split at missing
    · cases missing
    · rename_i different
      rw [if_neg different]
      exact lag.missing missing
  · intro other found present
    rw [InodeTable.get_put] at present ⊢
    split at present
    · rename_i same
      subst same
      obtain rfl := Option.some.inj present
      exact ⟨time, if_pos rfl⟩
    · rename_i different
      rw [if_neg different]
      exact lag.entry present

theorem erase (lag : Behind stale left right) (ino : Ino) :
    Behind stale (left.erase ino) (right.erase ino) := by
  refine ⟨?_, ?_, lag.paths, lag.nextInode, lag.touchCounter⟩
  · intro other missing
    rw [InodeTable.get_erase] at missing ⊢
    split at missing
    · rename_i same
      exact if_pos same
    · rename_i different
      rw [if_neg different]
      exact lag.missing missing
  · intro other found present
    rw [InodeTable.get_erase] at present ⊢
    split at present
    · cases present
    · rename_i different
      rw [if_neg different]
      exact lag.entry present

theorem removePath (lag : Behind stale left right) (path : Path) :
    Behind stale (left.removePath path) (right.removePath path) := by
  refine ⟨lag.missing, lag.entry, ?_, lag.nextInode, lag.touchCounter⟩
  simp only [InodeTable.removePath, lag.paths]

/-- A change that leaves the listing alone keeps the second table behind. -/
theorem modify {change other : InodeEntry → InodeEntry}
    (steady : ∀ stale time entry, ∃ later,
      other (behind stale time entry) = behind stale later (change entry))
    (lag : Behind stale left right) (ino : Ino) :
    Behind stale (left.modify ino change) (right.modify ino other) := by
  rcases lag.get ino with ⟨leftMissing, rightMissing⟩ |
    ⟨entry, time, foundLeft, foundRight⟩
  · rwa [InodeTable.modify_of_none leftMissing,
      InodeTable.modify_of_none rightMissing]
  · obtain ⟨later, changed⟩ := steady (ino ∈ stale) time entry
    rw [InodeTable.modify_of_some foundLeft,
      InodeTable.modify_of_some foundRight, changed]
    exact lag.put ino _ later

theorem dropEntry (lag : Behind stale left right) (ino : Ino) :
    Behind stale (left.dropEntry ino) (right.dropEntry ino) := by
  unfold InodeTable.dropEntry
  rcases lag.get ino with ⟨leftMissing, rightMissing⟩ |
    ⟨entry, time, foundLeft, foundRight⟩
  · rwa [leftMissing, rightMissing]
  · rw [foundLeft, foundRight]
    exact (lag.erase ino).removePath entry.fullPath

theorem dropEntries (lag : Behind stale left right) (inos : List Ino) :
    Behind stale (inos.foldl InodeTable.dropEntry left)
      (inos.foldl InodeTable.dropEntry right) := by
  induction inos generalizing left right with
  | nil => exact lag
  | cons ino inos ih => exact ih (lag.dropEntry ino)

theorem behind_removeChildByIno (stale : Bool) (time : Time)
    (entry : InodeEntry) (child : Ino) :
    (behind stale time entry).removeChildByIno child =
      behind stale time (entry.removeChildByIno child) := by
  unfold InodeEntry.removeChildByIno behind
  split <;> rename_i found
  · simp only at found
    rw [found]
  · simp only at found
    rw [found]

theorem behind_removeChildByName (stale : Bool) (time : Time)
    (entry : InodeEntry) (name : Name) :
    (behind stale time entry).removeChildByName name =
      behind stale time (entry.removeChildByName name) := by
  unfold InodeEntry.removeChildByName behind
  split <;> rename_i found
  · simp only at found
    rw [found]
  · simp only at found
    rw [found]

theorem detachFromParent (lag : Behind stale left right) (parent child : Ino)
    (kind : InodeKind) :
    Behind stale (left.detachFromParent parent child kind)
      (right.detachFromParent parent child kind) := by
  apply lag.modify
  intro stale time entry
  refine ⟨time, ?_⟩
  simp only [behind_removeChildByIno]
  rfl

theorem depthBound_le {table : InodeTable} {bound : Nat} (room : 0 < bound)
    (bounded : ∀ ino entry, table.get ino = some entry →
      entry.fullPath.length < bound) : table.depthBound ≤ bound := by
  have largest : ∀ lengths : List Nat, (∀ length ∈ lengths, length < bound) →
      lengths.foldr max 0 < bound := by
    intro lengths
    induction lengths with
    | nil => simpa using room
    | cons head tail ih =>
        intro below
        have rest := ih fun length listed =>
          below length (List.mem_cons_of_mem _ listed)
        exact Nat.max_lt.mpr ⟨below head List.mem_cons_self, rest⟩
  apply largest
  intro length listed
  obtain ⟨entry, member, rfl⟩ := List.mem_map.mp listed
  obtain ⟨ino, found⟩ := InodeTable.mem_values.mp member
  exact bounded ino entry found

theorem depthBound (lag : Behind stale left right) :
    right.depthBound = left.depthBound := by
  apply Nat.le_antisymm
  · apply depthBound_le (Nat.succ_pos _)
    intro ino entry found
    have paths := lag.map_get (·.fullPath) (fun _ _ _ => rfl) ino
    rw [found] at paths
    obtain ⟨other, foundLeft, same⟩ := Option.map_eq_some_iff.mp paths.symm
    simp only at same
    rw [← same]
    exact InodeTable.path_lt_depthBound foundLeft
  · apply depthBound_le (Nat.succ_pos _)
    intro ino entry found
    obtain ⟨time, foundRight⟩ := lag.entry found
    have below := InodeTable.path_lt_depthBound foundRight
    exact below

theorem descendants (lag : Behind stale left right) (depth : Nat)
    (upper : Ino) :
    right.descendants depth upper = left.descendants depth upper := by
  apply InodeTable.descendants_congr
  intro ino _
  exact lag.map_get (·.children) (fun _ _ _ => rfl) ino

theorem remove (lag : Behind stale left right) (ino : Ino) :
    Behind stale (left.remove ino) (right.remove ino) := by
  unfold InodeTable.remove
  rcases lag.get ino with ⟨leftMissing, rightMissing⟩ |
    ⟨entry, time, foundLeft, foundRight⟩
  · rwa [leftMissing, rightMissing]
  · have detached :=
      (lag.dropEntry ino).detachFromParent entry.parent ino entry.kind
    have walk := funext (detached.descendants left.depthBound)
    rw [foundLeft, foundRight]
    simp only [lag.depthBound, behind, walk]
    exact detached.dropEntries _

theorem unlinkOne (lag : Behind stale left right) (parent : Ino) (name : Name)
    (now later : Time) :
    Behind stale (left.unlinkOne parent name now).2
      (right.unlinkOne parent name later).2 := by
  unfold InodeTable.unlinkOne
  rcases lag.get parent with ⟨leftMissing, rightMissing⟩ |
    ⟨entry, time, foundLeft, foundRight⟩
  · rwa [leftMissing, rightMissing]
  · rw [foundLeft, foundRight]
    simp only [behind]
    cases entry.childIndex name with
    | none => exact lag
    | some child =>
        have unnamed : Behind stale
            ((left.modify parent (·.removeChildByName name)).removePath
              (childPath entry.fullPath name))
            ((right.modify parent (·.removeChildByName name)).removePath
              (childPath entry.fullPath name)) := by
          apply Behind.removePath
          apply lag.modify
          intro stale time entry
          exact ⟨time, behind_removeChildByName stale time entry name⟩
        rcases unnamed.get child with ⟨leftMissing, rightMissing⟩ |
          ⟨unlinked, stamp, inLeft, inRight⟩
        · simp only [leftMissing, rightMissing]
          exact unnamed
        · simp only [inLeft, inRight]
          exact unnamed.put child { unlinked with
            nlink := unlinked.nlink - 1
            ctime := now } later

theorem removeRemoteFile (lag : Behind stale left right) (ino : Ino)
    (now later : Time) :
    Behind stale (removeRemoteFile left ino now).2.1
      (removeRemoteFile right ino later).2.1 := by
  unfold Poll.removeRemoteFile
  rcases lag.get ino with ⟨leftMissing, rightMissing⟩ |
    ⟨entry, time, foundLeft, foundRight⟩
  · rwa [leftMissing, rightMissing]
  · rw [foundLeft, foundRight]
    have sameDirty : (behind (ino ∈ stale) time entry).isDirty =
        entry.isDirty := rfl
    simp only [sameDirty, lag.hasOpenHandles]
    by_cases dirty : entry.isDirty = true
    · simpa only [dirty, if_true] using lag
    · by_cases opened : left.hasOpenHandles ino = true
      · simp only [dirty, opened, if_true, behind]
        exact lag.unlinkOne entry.parent entry.name now later
      · simp only [dirty, opened]
        exact lag.remove ino

theorem mergeRemoteFile (lag : Behind stale left right) (ino : Ino)
    (hash : Option Hash) (size : Option Nat) (mtime : Option Time) :
    Behind stale (left.mergeRemoteFile ino hash size mtime).2
      (right.mergeRemoteFile ino hash size mtime).2 := by
  unfold InodeTable.mergeRemoteFile
  rcases lag.get ino with ⟨leftMissing, rightMissing⟩ |
    ⟨entry, time, foundLeft, foundRight⟩
  · rwa [leftMissing, rightMissing]
  · rw [foundLeft, foundRight]
    have sameDirty : (behind (ino ∈ stale) time entry).isDirty =
        entry.isDirty := rfl
    simp only [sameDirty]
    by_cases dirty : entry.isDirty = true
    · simpa only [dirty, if_true] using lag
    · simp only [dirty]
      exact lag.put ino
        { entry with
          xetHash := hash.orElse fun _ => entry.xetHash
          size := size.getD entry.size
          mtime := mtime.getD entry.mtime
          stagingIsCurrent := false } time

/-! ## Dropping listings -/

theorem congr {others : List Ino} (lag : Behind stale left right)
    (same : ∀ ino, ino ∈ stale ↔ ino ∈ others) : Behind others left right := by
  refine ⟨lag.missing, ?_, lag.paths, lag.nextInode, lag.touchCounter⟩
  intro ino entry found
  obtain ⟨time, other⟩ := lag.entry found
  refine ⟨time, ?_⟩
  rw [other, decide_eq_decide.mpr (same ino)]

/-- The second table drops one listing more. -/
theorem invalidate_right (lag : Behind stale left right) (dir : Ino) :
    Behind (dir :: stale) left (right.invalidateChildren dir) := by
  unfold InodeTable.invalidateChildren
  refine ⟨?_, ?_, ?_, ?_, ?_⟩
  · intro ino missing
    rw [InodeTable.get_modify]
    split
    · rename_i same
      rw [← same, lag.missing missing, Option.map_none]
    · exact lag.missing missing
  · intro ino entry found
    obtain ⟨time, other⟩ := lag.entry found
    rw [InodeTable.get_modify]
    split
    · rename_i same
      subst same
      refine ⟨time, ?_⟩
      rw [other]
      simp [behind]
    · rename_i different
      refine ⟨time, ?_⟩
      rw [other]
      simp [different]
  · rw [InodeTable.pathToInode_modify, lag.paths]
  · rw [InodeTable.nextInode_modify, lag.nextInode]
  · rw [InodeTable.touchCounter_modify, lag.touchCounter]

/-- The first table catches up with one listing. -/
theorem invalidate_left {dir : Ino} (lag : Behind (dir :: stale) left right) :
    Behind stale (left.invalidateChildren dir) right := by
  unfold InodeTable.invalidateChildren
  refine ⟨?_, ?_, ?_, ?_, ?_⟩
  · intro ino missing
    rw [InodeTable.get_modify] at missing
    split at missing
    · rename_i same
      exact lag.missing (same ▸ Option.map_eq_none_iff.mp missing)
    · exact lag.missing missing
  · intro ino entry found
    rw [InodeTable.get_modify] at found
    split at found
    · rename_i same
      subst same
      obtain ⟨loaded, present, rfl⟩ := Option.map_eq_some_iff.mp found
      obtain ⟨time, other⟩ := lag.entry present
      refine ⟨time, ?_⟩
      rw [other]
      simp [behind]
    · rename_i different
      obtain ⟨time, other⟩ := lag.entry found
      refine ⟨time, ?_⟩
      rw [other]
      simp [different]
  · rw [InodeTable.pathToInode_modify, lag.paths]
  · rw [InodeTable.nextInode_modify, lag.nextInode]
  · rw [InodeTable.touchCounter_modify, lag.touchCounter]

theorem invalidateAll_right (lag : Behind stale left right)
    (dirs : List Ino) :
    Behind (dirs ++ stale) left
      (dirs.foldl InodeTable.invalidateChildren right) := by
  induction dirs generalizing stale right with
  | nil => exact lag
  | cons dir dirs ih =>
      apply (ih (lag.invalidate_right dir)).congr
      intro ino
      simp only [List.mem_append, List.mem_cons]
      tauto

theorem invalidateAll_left {dirs : List Ino} (lag : Behind dirs left right) :
    Behind [] (dirs.foldl InodeTable.invalidateChildren left) right := by
  induction dirs generalizing left with
  | nil => exact lag
  | cons dir dirs ih => exact ih lag.invalidate_left

theorem sameButClock (lag : Behind [] left right) : SameButClock left right := by
  refine ⟨?_, lag.paths, lag.nextInode, lag.touchCounter⟩
  intro ino
  rcases lag.get ino with ⟨leftMissing, rightMissing⟩ |
    ⟨entry, time, foundLeft, foundRight⟩
  · rw [leftMissing, rightMissing]
  · rw [foundLeft, foundRight]
    simp [behind]

end Behind

/-! ## A batch in two -/

/-- The listings that the second run has to drop are those of the first, apart
from the stale ones. -/
structure Lags (stale : List Ino) (left right : FollowState) : Prop where
  table : Behind stale left.table right.table
  dirs : ∀ dir, dir ∈ left.dirs ↔ dir ∈ stale ∨ dir ∈ right.dirs

theorem Lags.change {stale : List Ino} {left right : FollowState}
    (lags : Lags stale left right) (now later : Time) (change : FollowChange) :
    Lags stale (applyFollowChange now left change)
      (applyFollowChange later right change) := by
  have lag := lags.table
  -- A change of nothing that is a file drops the listing above it.
  have unlisted : Lags stale
      (if left.table.isChildrenLoaded
          (left.table.nearestDirAncestor change.path).1 then
        { left with
          dirs := left.dirs ++
            [(left.table.nearestDirAncestor change.path).1] }
      else left)
      (if right.table.isChildrenLoaded
          (right.table.nearestDirAncestor change.path).1 then
        { right with
          dirs := right.dirs ++
            [(right.table.nearestDirAncestor change.path).1] }
      else right) := by
    rw [lag.nearestDirAncestor, lag.isChildrenLoaded]
    generalize (left.table.nearestDirAncestor change.path).1 = dir
    by_cases loaded : left.table.isChildrenLoaded dir = true
    · by_cases member : dir ∈ stale
      · simp only [loaded, member, if_true, not_true_eq_false, decide_false,
          Bool.and_false, Bool.false_eq_true, if_false]
        refine ⟨lag, fun other => ?_⟩
        rw [List.mem_append, List.mem_singleton, lags.dirs]
        constructor
        · rintro (before | rfl)
          · exact before
          · exact Or.inl member
        · exact Or.inl
      · simp only [loaded, member, if_true, not_false_eq_true, decide_true,
          Bool.and_self]
        refine ⟨lag, fun other => ?_⟩
        rw [List.mem_append, List.mem_append, lags.dirs, or_assoc]
    · simpa only [loaded, Bool.false_and, Bool.false_eq_true, if_false]
        using lags
  unfold applyFollowChange
  rcases lag.getByPath change.path with ⟨leftMissing, rightMissing⟩ |
    ⟨entry, dropped, time, foundLeft, foundRight⟩
  · rw [leftMissing, rightMissing]
    exact unlisted
  · have sameKind : (behind dropped time entry).kind = entry.kind := rfl
    have sameDirty : (behind dropped time entry).isDirty = entry.isDirty := rfl
    have sameInode : (behind dropped time entry).inode = entry.inode := rfl
    rw [foundLeft, foundRight, Option.filter_some, Option.filter_some, sameKind]
    by_cases file : entry.kind = .file
    · simp only [file, decide_true, if_true, sameDirty, sameInode]
      by_cases dirty : entry.isDirty = true
      · simpa only [dirty, if_true] using lags
      · simp only [dirty]
        cases change.op with
        | delete =>
            exact ⟨lag.removeRemoteFile entry.inode now later, lags.dirs⟩
        | add => exact ⟨lag.mergeRemoteFile entry.inode _ _ _, lags.dirs⟩
        | update => exact ⟨lag.mergeRemoteFile entry.inode _ _ _, lags.dirs⟩
    · simp only [file, decide_false]
      exact unlisted

theorem Lags.changes {stale : List Ino} {left right : FollowState}
    (lags : Lags stale left right) (now later : Time)
    (changes : List FollowChange) :
    Lags stale (changes.foldl (applyFollowChange now) left)
      (changes.foldl (applyFollowChange later) right) := by
  induction changes generalizing left right with
  | nil => exact lags
  | cons change changes ih => exact ih (lags.change now later change)

/-- What a run leaves once it has dropped its listings. -/
theorem Lags.finish {stale : List Ino} {left right : FollowState}
    (lags : Lags stale left right) :
    Behind left.dirs left.table
      (right.dirs.foldl InodeTable.invalidateChildren right.table) := by
  apply (lags.table.invalidateAll_right right.dirs).congr
  intro dir
  rw [lags.dirs, List.mem_append, or_comm]

theorem forgetMissing_append (cache : NegativeCache)
    (first second : List FollowChange) :
    forgetMissing (forgetMissing cache first) second =
      forgetMissing cache (first ++ second) := by
  funext path
  simp only [forgetMissing, List.any_append, Bool.or_eq_true]
  split <;> rename_i later
  · rw [if_pos (Or.inr later)]
  · simp only [later, or_false, Bool.false_eq_true]

/-- A batch can be split anywhere. -/
theorem applyFollowChanges_append (first second : List FollowChange)
    (now earlier later : Time) (state : PollState) :
    let whole := applyFollowChanges (first ++ second) now state
    let halves := applyFollowChanges second later
      (applyFollowChanges first earlier state)
    SameButClock whole.table halves.table ∧
      halves.negativeCache = whole.negativeCache := by
  let start : FollowState :=
    { table := state.table
      invalidated := state.invalidated
      dirs := [] }
  have atStart : Lags [] start start := ⟨.refl _, by simp⟩
  have firstHalf := atStart.changes now earlier first
  have cut : Lags _ (first.foldl (applyFollowChange now) start)
      { table := (applyFollowChanges first earlier state).table
        invalidated := (applyFollowChanges first earlier state).invalidated
        dirs := [] } := ⟨firstHalf.finish, by simp⟩
  have secondHalf := (cut.changes now later second).finish
  rw [← List.foldl_append] at secondHalf
  constructor
  · exact secondHalf.invalidateAll_left.sameButClock
  · exact forgetMissing_append state.negativeCache first second

end HfMount.Poll
