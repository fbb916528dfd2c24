import HfMount.Vfs.InstalledListing
import HfMount.Vfs.NamedFiles

/-!
# Entries that only exist locally

A new directory and a symlink are never sent to the remote, and they are never
dirty.  They live in the inode table alone.  A load of a directory above such
an entry finds nothing of it in the listing, and takes it for stale unless
something dirty or open is below it.
-/

namespace HfMount.Inode.InodeTable

open SlashPath Poll

/-! ## Resolving a path name by name -/

/-- The inode that a walk finds under the names, one lookup after the other. -/
def resolve (table : InodeTable) : Ino → List Name → Option Ino
  | ino, [] => some ino
  | ino, name :: names =>
      (table.lookupChild ino name).bind fun entry =>
        table.resolve entry.inode names

theorem resolve_append (table : InodeTable) (first second : List Name)
    (ino : Ino) :
    table.resolve ino (first ++ second) =
      (table.resolve ino first).bind fun middle =>
        table.resolve middle second := by
  induction first generalizing ino with
  | nil => rfl
  | cons name first ih =>
      simp only [List.cons_append, resolve, ih, Option.bind_assoc]

/-- A live inode is what its path resolves to. -/
theorem WellFormed.resolve {table : InodeTable} (wf : table.WellFormed)
    {ino : Ino} {entry : InodeEntry} (found : table.get ino = some entry)
    (live : entry.isLive = true) :
    table.resolve rootInode (components entry.fullPath) = some ino := by
  have below := wf.below_root found live
  induction below generalizing entry with
  | refl =>
      obtain ⟨rootEntry, foundRoot, _, rootPath⟩ := wf.root
      obtain rfl := Option.some.inj (foundRoot.symm.trans found)
      rw [rootPath]
      rfl
  | @tail middle lower _ one ih =>
      obtain ⟨middleEntry, name, foundMiddle, listed⟩ := one
      obtain ⟨directory, _, valid⟩ := wf.directory foundMiddle listed
      obtain ⟨childEntry, isChild⟩ := wf.child foundMiddle listed
      obtain rfl := Option.some.inj (isChild.found.symm.trans found)
      have up := ih foundMiddle (InodeEntry.isLive_of_directory directory)
      have key : childEntry.inode = lower := (wf.key found).1
      have looked : table.lookupChild middle name = some childEntry :=
        wf.lookupChild.mpr ⟨middleEntry, foundMiddle, key ▸ listed,
          key ▸ isChild⟩
      have single := @components_intercalate [name] (by simpa using valid)
      rw [isChild.fullPath, components_childPath _ valid.ne_nil,
        resolve_append, up, Option.bind_some]
      simp only [List.intercalate_singleton] at single
      simp [single, InodeTable.resolve, looked, key]

/-! ## What each operation does to an entry -/

section

variable {table after : InodeTable} {ino : Ino} {entry : InodeEntry}

/-- The inode is still there, in its place. -/
def Stays (table : InodeTable) (ino : Ino) (entry : InodeEntry) : Prop :=
  ∃ other, table.get ino = some other ∧ entry.SamePlace other

theorem Stays.of_found (found : table.get ino = some entry) :
    table.Stays ino entry :=
  ⟨entry, found, .refl entry⟩

theorem Stays.trans {middle : InodeEntry} (place : entry.SamePlace middle)
    (stays : table.Stays ino middle) : table.Stays ino entry := by
  obtain ⟨other, got, same⟩ := stays
  exact ⟨other, got, place.trans same⟩

theorem Similar.stays (similar : table.Similar after)
    (found : table.get ino = some entry) : after.Stays ino entry := by
  obtain ⟨other, got, same⟩ := similar.forward found
  exact ⟨other, got, same.toSamePlace⟩

theorem PrunedBy.stays {related : InodeEntry → InodeEntry → Prop}
    {gone : Ino → Prop} (pruned : PrunedBy related table after gone)
    (found : table.get ino = some entry) (kept : ¬ gone ino) :
    after.Stays ino entry := by
  obtain ⟨other, got, same, _⟩ := pruned.kept kept found
  exact ⟨other, got, same⟩

theorem Stays.insert (order : table.InOrder)
    (found : table.get ino = some entry) {parent : Ino} {name : Name}
    {fullPath : Path} {parentEntry : InodeEntry}
    (foundParent : table.get parent = some parentEntry)
    (directory : parentEntry.kind = .directory) (valid : ValidName name)
    (fits : table.pathToInode fullPath = none →
      fullPath = childPath parentEntry.fullPath name) (kind : InodeKind)
    (size : Nat) (mtime : Time) (xetHash : Option Hash) (mode uid gid : Nat)
    (now : Time) :
    (table.insert parent name fullPath kind size mtime xetHash mode uid gid
      now).2.Stays ino entry := by
  cases mapped : table.pathToInode fullPath with
  | some existing =>
      simp only [InodeTable.insert, mapped]
      exact Similar.stays (similar_modify table existing fun _ =>
        .of_fields rfl) found
  | none =>
      obtain ⟨other, got, place, _⟩ := Vfs.grows_insert order.wf foundParent
        directory valid (fits mapped) kind size mtime xetHash mode uid gid now
        ino entry found
      exact ⟨other, got, place⟩

/-- Unlinking another name, or one that nothing has. -/
theorem Stays.unlinkOne (order : table.InOrder)
    (found : table.get ino = some entry) {parent : Ino} {name : Name}
    (file : ∀ other, table.lookupChild parent name = some other →
      other.kind ≠ .directory)
    (elsewhere : ∀ other, table.lookupChild parent name = some other →
      ino ≠ other.inode) (now : Time) :
    (table.unlinkOne parent name now).2.Stays ino entry := by
  cases looked : table.lookupChild parent name with
  | some other =>
      exact (pruned_unlinkOne order.wf looked (file other looked) now).stays
        found (elsewhere other looked)
  | none =>
      rw [unlinkOne_of_free (order.wf.slot_none looked)]
      exact .of_found found

/-- Removing another file takes nothing else along. -/
theorem Stays.removeFile (order : table.InOrder)
    (found : table.get ino = some entry) {other : Ino}
    {otherEntry : InodeEntry} (foundOther : table.get other = some otherEntry)
    (file : otherEntry.kind ≠ .directory) (different : ino ≠ other)
    (own : ∀ target, table.pathToInode otherEntry.fullPath = some target →
      target = other) : (table.remove other).Stays ino entry := by
  rcases remove_cases order.wf foundOther own with live | ⟨_, _, same⟩
  · apply (pruned_remove order.wf foundOther
      (order.wf.ne_root_of_file foundOther file) live).stays found
    rw [order.wf.below_file foundOther file]
    exact different
  · apply Similar.stays same.similar
    rw [get_erase, if_neg different, found]

theorem Stays.remove (order : table.InOrder)
    (found : table.get ino = some entry) {other : Ino}
    (notRoot : other ≠ rootInode)
    (own : ∀ otherEntry, table.get other = some otherEntry →
      ∀ target, table.pathToInode otherEntry.fullPath = some target →
        target = other)
    (apart : ¬ table.Below other ino) : (table.remove other).Stays ino entry := by
  cases foundOther : table.get other with
  | none =>
      have same : table.remove other = table := by
        simp only [InodeTable.remove, foundOther]
      rw [same]
      exact .of_found found
  | some otherEntry =>
      rcases remove_cases order.wf foundOther (own otherEntry foundOther) with
        isLive | ⟨file, _, _⟩
      · exact (pruned_remove order.wf foundOther notRoot isLive).stays found
          apart
      · apply Stays.removeFile order found foundOther file _
          (own otherEntry foundOther)
        rintro rfl
        exact apart .refl

theorem Stays.evictIfSafe (order : table.InOrder)
    (found : table.get ino = some entry) (notFile : entry.kind ≠ .file)
    (target : Ino) : (table.evictIfSafe target).2.Stays ino entry := by
  cases foundTarget : table.get target with
  | none =>
      have same : (table.evictIfSafe target).2 = table := by
        simp only [InodeTable.evictIfSafe, foundTarget]
      rw [same]
      exact .of_found found
  | some targetEntry =>
      by_cases file : targetEntry.kind = .file
      · have different : ino ≠ target := by
          rintro rfl
          obtain rfl := Option.some.inj (found.symm.trans foundTarget)
          exact notFile file
        have leaf : targetEntry.kind ≠ .directory := by
          rw [file]
          decide
        rcases evictIfSafe_eq order.wf target with
          same | ⟨again, foundAgain, notRoot, live, same⟩
        · rw [same]
          exact .of_found found
        · obtain ⟨other, got, place⟩ := (pruned_remove order.wf foundAgain
            notRoot live).stays found (by
              rw [order.wf.below_file foundTarget leaf]
              exact different)
          exact .trans place (Similar.stays same.similar got)
      · have same : (table.evictIfSafe target).2 = table := by
          simp [InodeTable.evictIfSafe, foundTarget, file]
        rw [same]
        exact .of_found found

/-- Moving the source leaves what is not below it in its place. -/
theorem Movable.stays {info : RenameInfo} {request : RenameRequest}
    {source newEntry : InodeEntry}
    (movable : table.Movable info request source newEntry)
    (wf : table.WellFormed) (now : Time) (found : table.get ino = some entry)
    (apart : ¬ table.Below info.ino ino) :
    (table.moveRenamed info request now).Stays ino entry := by
  obtain ⟨_, recorded, moved, recordedDef, _, _, isMoved, result⟩ :=
    movable.moveRenamed wf now
  have owing : Corresponding InodeEntry.Owing table recorded :=
    recordedDef ▸ table.owing_record info
  have similar : table.Similar recorded :=
    owing.mono fun _ _ same => same.sameNode
  have outside : ¬ recorded.Below info.ino ino := by
    rw [Corresponding.below similar]
    exact apart
  have different : ino ≠ info.ino := by
    rintro rfl
    exact apart .refl
  obtain ⟨noted, foundNoted, place⟩ := Similar.stays similar found
  obtain ⟨target, foundTarget, same, _, elsewhere⟩ := isMoved.kept foundNoted
  have targetPlace : noted.SamePlace target := by
    refine ⟨same.inode, ?_, ?_, elsewhere outside, same.kind, same.links⟩
    · rw [same.parent, if_neg different]
    · rw [same.name, if_neg different]
  rw [result]
  exact .trans (place.trans targetPlace)
    (Similar.stays (similar_touchRenamed moved info request now) foundTarget)

theorem Stays.rename (order : table.InOrder)
    (found : table.get ino = some entry) {info : RenameInfo}
    {request : RenameRequest} {now : Time}
    (fits : table.Fits (.renameApplyLocal info request now))
    (applied : table.applyOp (.renameApplyLocal info request now) = some after)
    (apart : ¬ table.Below info.ino ino)
    (notReplaced : ∀ existing,
      table.lookupChild request.newparent request.newname = some existing →
      ¬ table.Below existing.inode ino) : after.Stays ino entry := by
  rcases rename_cases order fits applied with rfl | ⟨dropped, _, _, isApplied⟩
  · exact .of_found found
  cases isApplied with
  | sameInode => exact .of_found found
  | free _ movable => exact movable.stays order.wf now found apart
  | @replaced existing _ _ looked _ pruned movable =>
      have kept : ¬ ino = existing.inode := by
        rintro rfl
        exact notReplaced existing looked .refl
      obtain ⟨other, got, place⟩ := pruned.stays found kept
      exact .trans place (movable.stays (order.wf.pruned pruned) now got
        fun below => apart (Pruned.below pruned below))

end

end HfMount.Inode.InodeTable

namespace HfMount.Vfs

open SlashPath Inode Poll Transition

/-- The inode table and the paths that are known to be missing. -/
structure MountedTree where
  table : InodeTable
  negativeCache : NegativeCache

/-- `op` stands for everything that other calls, polls and evictions do to the
table, `load` for a listing that is installed.  `miss` is a path that a call
puts into the negative cache, and `forget` one that it takes out. -/
inductive TreeEvent where
  | op (op : TableOp)
  | load (settings : ListingSettings) (listing : Listing) (parent : Ino)
      (now : Time)
  | miss (path : Path) (now : Time)
  | forget (path : Path)

namespace MountedTree

def new : MountedTree :=
  { table := .new
    negativeCache := fun _ => none }

def step (tree : MountedTree) : TreeEvent → Option MountedTree
  | .op op => (tree.table.applyOp op).map fun table => { tree with table }
  | .load settings listing parent now => some { tree with
      table := (installListing settings listing parent now tree.table).2 }
  | .miss path now => some { tree with
      negativeCache := Function.update tree.negativeCache path (some now) }
  | .forget path => some { tree with
      negativeCache := Function.update tree.negativeCache path none }

/-- The part of `mkdir` and `symlink` that runs under the write lock: the
children of the parent are loaded, and the name has passed its checks. -/
def createLocal (tree : MountedTree) (parent : Ino) (name : Name)
    (kind : InodeKind) (size mode uid gid : Nat) (now : Time)
    (finish : InodeEntry → InodeEntry) : Except Errno Ino × MountedTree :=
  match tree.table.get parent with
  | none => (.error .enoent, tree)
  | some parentEntry =>
      if parentEntry.kind ≠ .directory then (.error .enotdir, tree)
      else if (tree.table.lookupChild parent name).isSome then
        (.error .eexist, tree)
      else
        let fullPath := childPath parentEntry.fullPath name
        let inserted := tree.table.insert parent name fullPath kind size now
          none mode uid gid now
        (.ok inserted.1,
          { table := (inserted.2.modify inserted.1 finish).touchParent parent
              now
            negativeCache := Function.update tree.negativeCache fullPath none })

/-- The new directory has nothing to fetch. -/
def mkdir (tree : MountedTree) (parent : Ino) (name : Name)
    (mode uid gid : Nat) (now : Time) : Except Errno Ino × MountedTree :=
  tree.createLocal parent name .directory 0 mode uid gid now fun entry =>
    { entry with childrenLoadedAt := some now }

def symlink (tree : MountedTree) (parent : Ino) (name : Name) (target : Path)
    (mode uid gid : Nat) (now : Time) : Except Errno Ino × MountedTree :=
  tree.createLocal parent name .symlink (target.map Char.utf8Size).sum mode uid
    gid now fun entry => { entry with symlinkTarget := some target }

/-- What an operation was given still holds for the tree that it changes. -/
def Fits (tree : MountedTree) : TreeEvent → Prop
  | .op op => tree.table.Fits op
  | .load _ listing parent _ => listing.Fits tree.table parent
  | .miss _ _ => True
  | .forget _ => True

/-- No call removes or renames the entry or a directory above it, and none
replaces it. -/
def LeavesEntry (ino : Ino) (tree : MountedTree) : TreeEvent → Prop
  | .op (.unlinkOne parent name _) =>
      ∀ entry ∈ tree.table.lookupChild parent name,
        ¬ AtOrAbove tree.table entry.inode ino
  | .op (.remove other) =>
      (∃ entry ∈ tree.table.get other, entry.kind = .file) ∨
        ¬ AtOrAbove tree.table other ino
  | .op (.renameApplyLocal info request _) =>
      ¬ AtOrAbove tree.table info.ino ino ∧
        ∀ entry ∈ tree.table.lookupChild request.newparent request.newname,
          ¬ AtOrAbove tree.table entry.inode ino
  | _ => True

/-- A load spares the entry, and its path is not taken for missing. -/
def SparesEntry (ino : Ino) (tree : MountedTree) : TreeEvent → Prop
  | .load settings listing parent _ =>
      LoadSpares settings listing parent tree.table ino
  | .miss path _ => ∀ entry ∈ tree.table.get ino, entry.fullPath ≠ path
  | _ => True

instance (tree : MountedTree) (event : TreeEvent) :
    Decidable (tree.Fits event) := by
  cases event <;> unfold Fits <;> infer_instance

instance (ino : Ino) (tree : MountedTree) :
    ∀ event, Decidable (LeavesEntry ino tree event)
  | .op (.unlinkOne parent name _) =>
      inferInstanceAs (Decidable (∀ entry ∈ tree.table.lookupChild parent name,
        ¬ AtOrAbove tree.table entry.inode ino))
  | .op (.remove other) =>
      inferInstanceAs (Decidable
        ((∃ entry ∈ tree.table.get other, entry.kind = .file) ∨
          ¬ AtOrAbove tree.table other ino))
  | .op (.renameApplyLocal info request _) =>
      inferInstanceAs (Decidable (¬ AtOrAbove tree.table info.ino ino ∧
        ∀ entry ∈ tree.table.lookupChild request.newparent request.newname,
          ¬ AtOrAbove tree.table entry.inode ino))
  | .op (.insert _ _ _ _ _ _ _ _ _ _ _) | .op (.update _ _)
  | .op (.removeOrphan _) | .op (.removeRemoteFile _ _)
  | .op (.evictIfSafe _) | .op (.evictBatchIfSafe _)
  | .load _ _ _ _ | .miss _ _ | .forget _ => isTrue trivial

instance (ino : Ino) (tree : MountedTree) (event : TreeEvent) :
    Decidable (SparesEntry ino tree event) := by
  cases event <;> unfold SparesEntry <;> infer_instance

/-- The entry is in the table, live, in its place, and its path is not taken
for missing. -/
structure Holds (ino : Ino) (entry : InodeEntry) (tree : MountedTree) :
    Prop where
  order : tree.table.InOrder
  stays : tree.table.Stays ino entry
  cached : tree.negativeCache entry.fullPath = none

theorem inOrder_step {before after : MountedTree} {event : TreeEvent}
    (order : before.table.InOrder) (fits : before.Fits event)
    (stepped : before.step event = some after) : after.table.InOrder := by
  cases event with
  | op op =>
      obtain ⟨table, applied, rfl⟩ := Option.map_eq_some_iff.mp stepped
      exact order.applyOp fits applied
  | load settings listing parent now =>
      obtain rfl := Option.some.inj stepped
      exact (keeps_installListing order fits).1
  | miss path now =>
      obtain rfl := Option.some.inj stepped
      exact order
  | forget path =>
      obtain rfl := Option.some.inj stepped
      exact order

/-- An operation on the table that leaves the entry alone keeps its place. -/
theorem stays_applyOp {tree : MountedTree} {after : InodeTable} {op : TableOp}
    {ino : Ino} {entry : InodeEntry} (order : tree.table.InOrder)
    (found : tree.table.get ino = some entry) (live : entry.isLive = true)
    (notFile : entry.kind ≠ .file) (fits : tree.table.Fits op)
    (alone : LeavesEntry ino tree (.op op))
    (applied : tree.table.applyOp op = some after) :
    after.Stays ino entry := by
  have notThere : ∀ {other : Ino} {otherEntry : InodeEntry},
      tree.table.get other = some otherEntry → otherEntry.kind = .file →
      ino ≠ other := by
    rintro other otherEntry foundOther file rfl
    obtain rfl := Option.some.inj (found.symm.trans foundOther)
    exact notFile file
  cases op with
  | insert parent name fullPath kind size mtime xetHash mode uid gid now =>
      simp only [InodeTable.applyOp, Option.ite_none_right_eq_some,
        Bool.and_eq_true, decide_eq_true_eq, Option.some.injEq] at applied
      obtain ⟨⟨isDirectory, valid⟩, rfl⟩ := applied
      obtain ⟨parentEntry, foundParent, directory⟩ :=
        InodeTable.isDirectory_iff.mp isDirectory
      exact .insert order found foundParent directory valid
        (fun unmapped => fits unmapped parentEntry foundParent) kind size mtime
        xetHash mode uid gid now
  | update target field =>
      obtain rfl := Option.some.inj applied
      exact InodeTable.Similar.stays (InodeTable.similar_modify tree.table
        target fun other => (field.same other).toSameNode) found
  | unlinkOne parent name now =>
      obtain rfl := Option.some.inj applied
      apply InodeTable.Stays.unlinkOne order found fits
      intro other looked same
      obtain ⟨_, _, _, isChild⟩ := order.wf.lookupChild.mp looked
      apply alone other looked
      rw [same]
      exact atOrAbove_of_below order.wf .refl
  | removeOrphan target =>
      obtain rfl := Option.some.inj applied
      rcases InodeTable.removeOrphan_cases order target with
        ⟨same, _⟩ | ⟨orphan, foundOrphan, dead, _, pruned⟩
      · rw [same]
        exact .of_found found
      · apply pruned.stays found
        rintro rfl
        obtain rfl := Option.some.inj (found.symm.trans foundOrphan)
        rw [live] at dead
        cases dead
  | remove target =>
      simp only [InodeTable.applyOp, Option.ite_none_left_eq_some,
        Option.some.injEq] at applied
      obtain ⟨notRoot, rfl⟩ := applied
      rcases alone with ⟨other, foundOther, file⟩ | apart
      · apply InodeTable.Stays.removeFile order found foundOther _
          (notThere foundOther file) (fits other foundOther)
        rw [file]
        decide
      · apply InodeTable.Stays.remove order found notRoot fits
        intro below
        exact apart (atOrAbove_of_below order.wf below)
  | removeRemoteFile target now =>
      simp only [InodeTable.applyOp, Option.ite_none_right_eq_some,
        Option.some.injEq] at applied
      obtain ⟨file, rfl⟩ := applied
      have isFile : IsFile tree.table target := by
        intro other foundOther
        rw [foundOther] at file
        exact of_decide_eq_true file
      rcases removeRemoteFile_cases isFile fits now with
        same | ⟨other, foundOther, leaf, ⟨same, looked⟩ | ⟨same, own⟩⟩
      · rw [same]
        exact .of_found found
      · rw [same]
        have key := (order.wf.key foundOther).1
        have different := notThere foundOther (isFile other foundOther)
        apply InodeTable.Stays.unlinkOne order found
        · intro again lookedAgain
          obtain rfl := Option.some.inj (looked.symm.trans lookedAgain)
          exact leaf
        · intro again lookedAgain
          obtain rfl := Option.some.inj (looked.symm.trans lookedAgain)
          rw [key]
          exact different
      · rw [same]
        exact .removeFile order found foundOther leaf
          (notThere foundOther (isFile other foundOther)) own
  | evictIfSafe target =>
      obtain rfl := Option.some.inj applied
      exact .evictIfSafe order found notFile target
  | evictBatchIfSafe targets =>
      obtain rfl := Option.some.inj applied
      apply (InodeTable.pruned_evictBatchIfSafe order.wf targets).stays found
      intro isGone
      obtain ⟨gone, evicted, rfl⟩ := List.mem_map.mp isGone
      obtain ⟨foundGone, file, _⟩ :=
        InodeTable.mem_evictedEntries order.wf evicted
      exact notThere foundGone file rfl
  | renameApplyLocal info request now =>
      have walk : ∀ {upper : Ino}, tree.table.Below upper ino →
          AtOrAbove tree.table upper ino :=
        fun below => atOrAbove_of_below order.wf below
      exact .rename order found fits applied (mt walk alone.1)
        fun existing looked => mt walk (alone.2 existing looked)

theorem holds_step {before after : MountedTree} {event : TreeEvent} {ino : Ino}
    {entry : InodeEntry} (live : entry.isLive = true)
    (notFile : entry.kind ≠ .file) (holds : Holds ino entry before)
    (fits : before.Fits event) (alone : LeavesEntry ino before event)
    (spares : SparesEntry ino before event)
    (stepped : before.step event = some after) : Holds ino entry after := by
  have order := inOrder_step holds.order fits stepped
  obtain ⟨current, found, place⟩ := holds.stays
  cases event with
  | op op =>
      obtain ⟨table, applied, rfl⟩ := Option.map_eq_some_iff.mp stepped
      have stays := stays_applyOp holds.order found (place.isLive.trans live)
        (place.kind ▸ notFile) fits alone applied
      exact ⟨order, .trans place stays, holds.cached⟩
  | load settings listing parent now =>
      obtain rfl := Option.some.inj stepped
      obtain ⟨other, got, same, _⟩ :=
        (keeps_installListing holds.order fits).2 ino current found spares
      exact ⟨order, ⟨other, got, place.trans same⟩, holds.cached⟩
  | miss path now =>
      obtain rfl := Option.some.inj stepped
      have elsewhere : entry.fullPath ≠ path := by
        rw [← place.fullPath]
        exact spares current found
      refine ⟨order, ⟨current, found, place⟩, ?_⟩
      exact (Function.update_of_ne elsewhere _ _).trans holds.cached
  | forget path =>
      obtain rfl := Option.some.inj stepped
      refine ⟨order, ⟨current, found, place⟩, ?_⟩
      dsimp only
      rw [Function.update_apply, holds.cached, ite_self]

/-! ## A local entry in a run -/

/-- What `mkdir` and `symlink` leave when they succeed. -/
theorem holds_createLocal {tree made : MountedTree}
    (order : tree.table.InOrder) {parent ino : Ino} {name : Name}
    (valid : ValidName name) {kind : InodeKind} {size mode uid gid : Nat}
    {now : Time} {finish : InodeEntry → InodeEntry}
    (created : tree.createLocal parent name kind size mode uid gid now finish =
      (.ok ino, made))
    (finished : ∀ entry : InodeEntry, entry.SameLinks (finish entry)) :
    ino ≠ rootInode ∧ ∃ entry, made.table.get ino = some entry ∧
      entry.isLive = true ∧ entry.kind = kind ∧ entry.parent = parent ∧
      entry.name = name ∧ Holds ino entry made := by
  unfold createLocal at created
  split at created <;> rename_i foundParent
  · cases created
  rename_i parentEntry
  split at created <;> rename_i directory
  · cases created
  split at created <;> rename_i taken
  · cases created
  rw [not_not] at directory
  have free : parentEntry.childIndex name = none := by
    rw [← order.wf.lookupChild_none foundParent]
    simpa using taken
  obtain ⟨after, inserted, _, _, foundNew, foundGrown, _⟩ :=
    InodeTable.insert_of_free order.wf foundParent directory valid free kind
      size now none mode uid gid now
  have insertedOrder := order.insert foundParent directory valid
    (fun _ => rfl) kind size now none mode uid gid now
  rw [inserted] at insertedOrder
  simp only [inserted, Prod.mk.injEq, Except.ok.injEq] at created
  obtain ⟨rfl, rfl⟩ := created
  have finishedTable := InodeTable.similar_modify after tree.table.nextInode
    fun entry => (finished entry).toSameNode
  obtain ⟨done, foundDone, place⟩ := finishedTable.forward foundNew
  obtain ⟨last, foundLast, lastPlace⟩ :=
    (InodeTable.similar_touchParent _ parent now).forward foundDone
  have whole := place.toSamePlace.trans lastPlace.toSamePlace
  refine ⟨?_, last, foundLast, ?_, whole.kind, whole.parent, whole.name, ?_,
    ?_, ?_⟩
  · obtain ⟨rootEntry, foundRoot, _⟩ := order.wf.root
    exact (Nat.ne_of_lt (order.wf.key foundRoot).2).symm
  · rw [whole.isLive]
    cases kind <;> rfl
  · apply (insertedOrder.update tree.table.nextInode finished).update parent
    exact fun _ =>
      .of_fields rfl
  · exact .of_found foundLast
  · dsimp only
    rw [whole.fullPath]
    exact Function.update_self _ _ _

/-- The entry is still in the table, and its path resolves to it. -/
def EntryKept (parent : Ino) (name : Name) (ino : Ino)
    (made final : MountedTree) : Prop :=
  ∃ entry other, made.table.get ino = some entry ∧
    final.table.get ino = some other ∧ other.kind = entry.kind ∧
    other.fullPath = entry.fullPath ∧
    final.table.lookupChild parent name = some other ∧
    final.table.resolve rootInode (components entry.fullPath) = some ino ∧
    final.negativeCache entry.fullPath = none

theorem Holds.entryKept {ino parent : Ino} {name : Name} {entry : InodeEntry}
    {made final : MountedTree} (holds : Holds ino entry final)
    (found : made.table.get ino = some entry) (live : entry.isLive = true)
    (notRoot : ino ≠ rootInode) (atParent : entry.parent = parent)
    (named : entry.name = name) : EntryKept parent name ino made final := by
  obtain ⟨other, got, place⟩ := holds.stays
  have wf := holds.order.wf
  have liveOther := place.isLive.trans live
  have looked := wf.lookupChild_self got notRoot liveOther
  refine ⟨entry, other, found, got, place.kind, place.fullPath, ?_, ?_,
    holds.cached⟩
  · rw [← atParent, ← named, ← place.parent, ← place.name]
    exact looked
  · rw [← place.fullPath]
    exact wf.resolve got liveOther

/-- A directory or symlink that was made locally stays, and its path resolves
to it, in every run that leaves it alone and whose loads spare it. -/
theorem local_entry_kept_of_spared {before made final : MountedTree}
    {earlier later : List TreeEvent} {parent ino : Ino} {name : Name}
    {mode uid gid : Nat} {now : Time} (valid : ValidName name)
    (fits : AllSteps step Fits new earlier)
    (run : exec step new earlier = some before)
    (created : before.mkdir parent name mode uid gid now = (.ok ino, made) ∨
      ∃ target, before.symlink parent name target mode uid gid now =
        (.ok ino, made))
    (alone : AllSteps step (LeavesEntry ino) made later)
    (spared : AllSteps step
      (fun tree event => tree.Fits event ∧ SparesEntry ino tree event) made
      later)
    (ran : exec step made later = some final) :
    EntryKept parent name ino made final := by
  have order : before.table.InOrder :=
    @exec_invariant _ _ step Fits (fun tree => tree.table.InOrder)
      (fun _ _ _ inOrder good stepped => inOrder_step inOrder good stepped)
      new before earlier InodeTable.inOrder_new fits run
  have start : ino ≠ rootInode ∧ ∃ entry, made.table.get ino = some entry ∧
      entry.isLive = true ∧ entry.kind ≠ .file ∧ entry.parent = parent ∧
      entry.name = name ∧ Holds ino entry made := by
    rcases created with isDirectory | ⟨target, isSymlink⟩
    · unfold mkdir at isDirectory
      obtain ⟨notRoot, entry, found, live, kind, rest⟩ :=
        holds_createLocal order valid isDirectory fun _ =>
          .of_fields rfl
      exact ⟨notRoot, entry, found, live, by simp [kind], rest⟩
    · unfold symlink at isSymlink
      obtain ⟨notRoot, entry, found, live, kind, rest⟩ :=
        holds_createLocal order valid isSymlink fun _ =>
          .of_fields rfl
      exact ⟨notRoot, entry, found, live, by simp [kind], rest⟩
  obtain ⟨notRoot, entry, found, live, notFile, atParent, named, holds⟩ := start
  have atEnd : Holds ino entry final :=
    @exec_invariant _ _ step
      (fun tree event => LeavesEntry ino tree event ∧
        tree.Fits event ∧ SparesEntry ino tree event) (Holds ino entry)
      (fun _ _ _ invariant good stepped => holds_step live notFile invariant
        good.2.1 good.1 good.2.2 stepped)
      made final later holds (alone.and spared) ran
  exact atEnd.entryKept found live notRoot atParent named

/-- A load of the root whose listing has these files. -/
def loadRoot (names : List Name) (now : Time) : TreeEvent :=
  .load ⟨false, 0, 493, 420, 0, 0⟩
    ⟨[], names.map fun name => ⟨name, .file, some 1, some name, none, none⟩,
      fun _ => none⟩ rootInode now

def invalidated : FieldChange :=
  { change := fun entry => { entry with childrenLoadedAt := none }
    same := fun _ =>
      .of_fields rfl }

def dirtied : FieldChange :=
  { change := InodeEntry.setDirty
    same := InodeEntry.sameLinks_setDirty }

/-- The directory `d` is made beside the remote file `a`. -/
def directoryMade : Except Errno Ino × MountedTree :=
  ((exec step new [loadRoot [['a']] 1]).get (by decide)).mkdir rootInode ['d']
    493 0 0 2

/-- The file `b` is new on the remote, and the root is listed again. -/
def listedAgain : List TreeEvent :=
  [.op (.update rootInode invalidated), loadRoot [['a'], ['b']] 3]

/-- A file that is not uploaded yet keeps the directory. -/
def fileWritten : List TreeEvent :=
  [.op (.insert 3 ['x'] ['d', '/', 'x'] .file 0 2 none 420 0 0 2),
    .op (.update 4 dirtied)]

theorem local_entry_kept_of_spared_file_written :
    EntryKept rootInode ['d'] 3 directoryMade.2
      ((exec step directoryMade.2 (fileWritten ++ listedAgain)).get
        (by decide)) :=
  @local_entry_kept_of_spared _ directoryMade.2 _ [loadRoot [['a']] 1]
    (fileWritten ++ listedAgain) rootInode 3 ['d'] 493 0 0 2 (by decide)
    (by decide) (Option.some_get _).symm (Or.inl rfl) (by decide) (by decide)
    (Option.some_get _).symm

/-- No listing has anything at or below the path. -/
def RemoteFree (path : Path) : TreeEvent → Prop
  | .load _ listing _ _ =>
      ∀ entry ∈ listing.entries, ¬ Within path entry.path
  | _ => True

instance (path : Path) : ∀ event, Decidable (RemoteFree path event)
  | .load _ listing _ _ =>
      inferInstanceAs (Decidable (∀ entry ∈ listing.entries,
        ¬ Within path entry.path))
  | .op _ | .miss _ _ | .forget _ => isTrue trivial

/-- Without the file, the load takes the directory for stale. -/
theorem local_entry_not_kept : ¬ ∀ (before made final : MountedTree)
    (earlier later : List TreeEvent) (name : Name) (ino : Ino),
    ValidName name → AllSteps step Fits new earlier →
    exec step new earlier = some before →
    before.mkdir rootInode name 493 0 0 2 = (.ok ino, made) →
    AllSteps step (LeavesEntry ino) made later →
    AllSteps step Fits made later → exec step made later = some final →
    (∀ event ∈ earlier ++ later, RemoteFree name event) →
    EntryKept rootInode name ino made final := by
  intro claim
  obtain ⟨_, other, _, gone, _⟩ := claim _ directoryMade.2
    ((exec step directoryMade.2 listedAgain).get (by decide))
    [loadRoot [['a']] 1] listedAgain ['d'] 3 (by decide) (by decide)
    (Option.some_get (by decide)).symm rfl (by decide) (by decide)
    (Option.some_get _).symm (by decide)
  have missing : ((exec step directoryMade.2 listedAgain).get
      (by decide)).table.get 3 = none := rfl
  rw [missing] at gone
  cases gone

end MountedTree

end HfMount.Vfs
