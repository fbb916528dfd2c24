import HfMount.Inode.Eviction
import HfMount.Lib.Transition
import HfMount.Poll.Removal
import HfMount.Vfs.LinkCounts

/-!
# Runs of inode table operations

The file system changes the inode table with about ten operations.  Several of
them get arguments that were read earlier, under another lock: the full path
of a new inode, the inode that a revalidation removes, what the validation of
a rename found.  As long as each operation still fits the table that it
changes, the redundant indexes of the table agree.
-/

namespace HfMount.Inode

open SlashPath Poll Transition

/-- A change of fields that are no index: attributes, times, hashes, dirty
generations, handles, listings. -/
structure FieldChange where
  change : InodeEntry → InodeEntry
  same : ∀ entry : InodeEntry, entry.SameLinks (change entry)

/-- The operations as the file system issues them. -/
inductive TableOp where
  | insert (parent : Ino) (name : Name) (fullPath : Path) (kind : InodeKind)
      (size : Nat) (mtime : Time) (xetHash : Option Hash) (mode uid gid : Nat)
      (now : Time)
  | update (ino : Ino) (field : FieldChange)
  | unlinkOne (parent : Ino) (name : Name) (now : Time)
  | removeOrphan (ino : Ino)
  | remove (ino : Ino)
  | removeRemoteFile (ino : Ino) (now : Time)
  | evictIfSafe (ino : Ino)
  | evictBatchIfSafe (inos : List Ino)
  | renameApplyLocal (info : RenameInfo) (request : RenameRequest) (now : Time)

namespace InodeTable

/-- The local half of the rename gets past its own checks. -/
def renameMoves (table : InodeTable) (info : RenameInfo)
    (request : RenameRequest) : Bool :=
  (table.get info.ino).isSome &&
    match table.lookupChild request.newparent request.newname with
    | none => true
    | some existing =>
        decide (existing.inode ≠ info.ino) &&
          (destinationConflict request.noReplace info.kind existing).isNone

/-- The validation, made again now, would find the same source and
destination, and the old path has not passed to another inode. -/
def renameFits (table : InodeTable) (info : RenameInfo)
    (request : RenameRequest) : Bool :=
  match table.renameValidate request with
  | .error _ => false
  | .ok current =>
      decide (current.ino = info.ino) && decide (current.kind = info.kind) &&
        decide (current.newFullPath = info.newFullPath) &&
        (table.pathToInode info.oldPath).all (· = info.ino)

/-- One operation.  Every caller of `insert` has found the parent to be a
directory; names, and the directories of a rename, come from the kernel or a
listing; the root is never removed, and a poll removes files only. -/
def applyOp (table : InodeTable) : TableOp → Option InodeTable
  | .insert parent name fullPath kind size mtime xetHash mode uid gid now =>
      if table.isDirectory parent && decide (ValidName name) then
        some (table.insert parent name fullPath kind size mtime xetHash mode
          uid gid now).2
      else none
  | .update ino field => some (table.modify ino field.change)
  | .unlinkOne parent name now => some (table.unlinkOne parent name now).2
  | .removeOrphan ino => some (table.removeOrphan ino)
  | .remove ino => if ino = rootInode then none else some (table.remove ino)
  | .removeRemoteFile ino now =>
      if (table.get ino).all (·.kind = .file) then
        some (Poll.removeRemoteFile table ino now).2.1
      else none
  | .evictIfSafe ino => some (table.evictIfSafe ino).2
  | .evictBatchIfSafe inos => some (table.evictBatchIfSafe inos).2
  | .renameApplyLocal info request now =>
      if (table.get request.newparent).all (·.kind = .directory) &&
          decide (ValidName request.newname) then
        match table.renameApplyLocal info request now with
        | .ok (_, after) => some after
        | .error _ => some table
      else none

/-- What was read before the operation still holds: a new inode gets the path
of its name in the directory, the name that is unlinked is no directory, an
inode that is removed has not passed its path or name to another one, and a
rename that goes on finds what its validation found. -/
def Fits (table : InodeTable) : TableOp → Prop
  | .insert parent name fullPath _ _ _ _ _ _ _ _ =>
      table.pathToInode fullPath = none →
        ∀ entry ∈ table.get parent, fullPath = childPath entry.fullPath name
  | .unlinkOne parent name _ =>
      ∀ entry ∈ table.lookupChild parent name, entry.kind ≠ .directory
  | .remove ino =>
      ∀ entry ∈ table.get ino, ∀ target ∈ table.pathToInode entry.fullPath,
        target = ino
  | .removeRemoteFile ino _ =>
      ∀ target ∈ deletionTarget table ino, target = ino
  | .renameApplyLocal info request _ =>
      table.renameMoves info request = true →
        table.renameFits info request = true
  | .update _ _ => True
  | .removeOrphan _ => True
  | .evictIfSafe _ => True
  | .evictBatchIfSafe _ => True

instance decidableFits (table : InodeTable) (op : TableOp) :
    Decidable (table.Fits op) := by
  cases op <;> unfold Fits <;> infer_instance

/-- The indexes of the table agree. -/
structure IndexesAgree (table : InodeTable) : Prop where
  /-- The index of a directory has its children, under unique names. -/
  index : ∀ ino entry, table.get ino = some entry →
    entry.kind = .directory →
    (∀ name child, entry.childIndex name = some child ↔
      ⟨child, name⟩ ∈ entry.children) ∧ (entry.children.map (·.name)).Nodup
  /-- A live inode is a child of its parent alone, under its name. -/
  attached : ∀ ino entry, table.get ino = some entry → 0 < entry.nlink →
    ino ≠ rootInode → ∀ dir name,
    (∃ dirEntry, table.get dir = some dirEntry ∧ dirEntry.kind = .directory ∧
      ⟨ino, name⟩ ∈ dirEntry.children) ↔ dir = entry.parent ∧ name = entry.name
  /-- The path mapping is that of the live inodes, one to one. -/
  path : ∀ path ino, table.pathToInode path = some ino ↔
    ∃ entry, table.get ino = some entry ∧ 0 < entry.nlink ∧
      entry.fullPath = path
  fullPath : ∀ ino entry, table.get ino = some entry → 0 < entry.nlink →
    ino ≠ rootInode → ∃ parentEntry, table.get entry.parent = some parentEntry ∧
      entry.fullPath = childPath parentEntry.fullPath entry.name
  rooted : ∀ ino entry, table.get ino = some entry → 0 < entry.nlink →
    Relation.ReflTransGen (fun lower upper => ∃ lowerEntry,
      table.get lower = some lowerEntry ∧ lowerEntry.parent = upper)
      ino rootInode
  links : ∀ ino entry, table.get ino = some entry → entry.kind = .directory →
    entry.nlink = 2 + table.subdirectories entry

/-! ## The operations keep the tree -/

/-- The tree is in order and every directory counts its subdirectories. -/
structure InOrder (table : InodeTable) : Prop where
  wf : table.WellFormed
  counted : table.Counted

theorem inOrder_new : new.InOrder := by
  refine ⟨wellFormed_new, ?_⟩
  intro ino entry found _
  obtain ⟨rfl, rfl⟩ := eq_root_of_get_new found
  rfl

section

variable {table : InodeTable}

theorem InOrder.update (order : table.InOrder) (ino : Ino)
    {change : InodeEntry → InodeEntry}
    (same : ∀ entry : InodeEntry, entry.SameLinks (change entry)) :
    (table.modify ino change).InOrder := by
  refine ⟨order.wf.similar ?_, order.counted.touched ino same⟩
  exact similar_modify table ino fun entry => (same entry).toSameNode

theorem InOrder.insert (order : table.InOrder) {parent : Ino} {name : Name}
    {fullPath : Path} {parentEntry : InodeEntry}
    (found : table.get parent = some parentEntry)
    (directory : parentEntry.kind = .directory) (valid : ValidName name)
    (fits : table.pathToInode fullPath = none →
      fullPath = childPath parentEntry.fullPath name) (kind : InodeKind)
    (size : Nat) (mtime : Time) (xetHash : Option Hash) (mode uid gid : Nat)
    (now : Time) :
    (table.insert parent name fullPath kind size mtime xetHash mode uid gid
      now).2.InOrder := by
  cases mapped : table.pathToInode fullPath with
  | some existing =>
      simp only [InodeTable.insert, mapped]
      apply order.update
      intro entry
      exact .of_fields rfl
  | none =>
      obtain rfl := fits mapped
      have free := order.wf.free_of_path found mapped
      exact ⟨order.wf.insert found directory valid free kind size mtime xetHash
          mode uid gid now,
        order.counted.insert order.wf found directory valid free kind size
          mtime xetHash mode uid gid now⟩

/-- Unlinking a name that is no directory, or that nothing has. -/
theorem InOrder.unlinkOne (order : table.InOrder) {parent : Ino} {name : Name}
    (fits : ∀ entry, table.lookupChild parent name = some entry →
      entry.kind ≠ .directory) (now : Time) :
    (table.unlinkOne parent name now).2.InOrder := by
  cases looked : table.lookupChild parent name with
  | some entry =>
      have file := fits entry looked
      exact ⟨order.wf.pruned (pruned_unlinkOne order.wf looked file now),
        order.counted.unlinkOne order.wf looked file now⟩
  | none =>
      have same : (table.unlinkOne parent name now).2 = table := by
        cases found : table.get parent with
        | none => simp only [InodeTable.unlinkOne, found]
        | some parentEntry =>
            have free := (order.wf.lookupChild_none found).mp looked
            simp only [InodeTable.unlinkOne, found, free]
      rw [same]
      exact order

theorem InOrder.remove (order : table.InOrder) {ino : Ino}
    {entry : InodeEntry} (found : table.get ino = some entry)
    (notRoot : ino ≠ rootInode)
    (own : ∀ target, table.pathToInode entry.fullPath = some target →
      target = ino) : (table.remove ino).InOrder := by
  refine ⟨order.wf.remove found notRoot own, ?_⟩
  rcases remove_cases order.wf found own with live | ⟨file, links, same⟩
  · exact order.counted.remove order.wf found notRoot live
  · obtain ⟨erased, pruned⟩ := pruned_removeOrphan order.wf found file links
    rw [erased] at pruned
    exact (order.counted.erase order.wf found file pruned).similar same

theorem InOrder.removeRemoteFile (order : table.InOrder) {ino : Ino}
    (file : IsFile table ino)
    (own : ∀ target, deletionTarget table ino = some target → target = ino)
    (now : Time) : (Poll.removeRemoteFile table ino now).2.1.InOrder := by
  rcases removeRemoteFile_cases file own now with
    same | ⟨entry, found, notDirectory, ⟨same, looked⟩ | ⟨same, ownPath⟩⟩
  · rw [same]
    exact order
  · rw [same]
    apply order.unlinkOne
    intro other lookedOther
    obtain rfl := Option.some.inj (looked.symm.trans lookedOther)
    exact notDirectory
  · rw [same]
    exact order.remove found (order.wf.ne_root_of_file found notDirectory)
      ownPath

theorem InOrder.evictIfSafe (order : table.InOrder) (ino : Ino) :
    (table.evictIfSafe ino).2.InOrder := by
  refine ⟨order.wf.evictIfSafe ino, ?_⟩
  rcases evictIfSafe_eq order.wf ino with
    same | ⟨entry, found, notRoot, live, same⟩
  · rw [same]
    exact order.counted
  · exact (order.counted.remove order.wf found notRoot live).similar same

theorem InOrder.evictBatchIfSafe (order : table.InOrder) (inos : List Ino) :
    (table.evictBatchIfSafe inos).2.InOrder := by
  have pruned := pruned_evictBatchIfSafe order.wf inos
  refine ⟨order.wf.pruned pruned, order.counted.gone order.wf pruned ?_ ?_⟩
  · intro ino entry isGone found
    obtain ⟨gone, evicted, rfl⟩ := List.mem_map.mp isGone
    obtain ⟨foundGone, isFile, _⟩ := mem_evictedEntries order.wf evicted
    obtain rfl := Option.some.inj (found.symm.trans foundGone)
    rw [isFile]
    decide
  · intro ino before after foundBefore foundAfter directory
    have stays : ino ∉ (table.evictedEntries inos).map (·.inode) := by
      intro isGone
      rw [get_evictBatchIfSafe, if_pos isGone] at foundAfter
      cases foundAfter
    obtain ⟨kept, foundKept, _, links, _⟩ := pruned.kept stays foundBefore
    obtain rfl := Option.some.inj (foundAfter.symm.trans foundKept)
    exact links

/-- A rename that does not get past its checks changes nothing. -/
theorem renameApplyLocal_of_not_moves {info : RenameInfo}
    {request : RenameRequest} {now : Time} {dropped : Option Ino}
    {after : InodeTable} (stays : table.renameMoves info request = false)
    (ok : table.renameApplyLocal info request now = .ok (dropped, after)) :
    after = table := by
  unfold renameApplyLocal at ok
  unfold renameMoves at stays
  split at ok <;> rename_i found
  · cases ok
  rw [found, Option.isSome_some, Bool.true_and] at stays
  split at ok <;> rename_i looked
  · rw [looked] at stays
    cases stays
  rw [looked] at stays
  split at ok <;> rename_i same
  · exact (Prod.mk.inj (Except.ok.inj ok)).2.symm
  split at ok <;> rename_i conflict
  · cases ok
  · simp [same, conflict] at stays

theorem current_of_fits {info : RenameInfo} {request : RenameRequest}
    (directory : ∀ entry, table.get request.newparent = some entry →
      entry.kind = .directory) (valid : ValidName request.newname)
    (fits : table.renameFits info request = true) :
    ∃ src newParentEntry, table.Current info request src newParentEntry := by
  unfold renameFits at fits
  split at fits <;> rename_i validated
  · cases fits
  rename_i found
  simp only [Bool.and_eq_true, decide_eq_true_eq] at fits
  obtain ⟨⟨⟨ino, kind⟩, newFullPath⟩, oldPath⟩ := fits
  obtain ⟨src, newParentEntry, isValid⟩ := renameValidate_eq_ok validated
  obtain rfl := isValid.info
  refine ⟨src, newParentEntry, isValid, directory _ isValid.parent, valid,
    ino.symm, ?_, kind.symm, newFullPath.symm⟩
  intro other mapped
  rw [mapped] at oldPath
  exact of_decide_eq_true oldPath

theorem InOrder.renameApplyLocal (order : table.InOrder) {info : RenameInfo}
    {request : RenameRequest} {now : Time} {dropped : Option Ino}
    {after : InodeTable}
    (directory : ∀ entry, table.get request.newparent = some entry →
      entry.kind = .directory) (valid : ValidName request.newname)
    (fits : table.renameMoves info request = true →
      table.renameFits info request = true)
    (ok : table.renameApplyLocal info request now = .ok (dropped, after)) :
    after.InOrder := by
  cases moves : table.renameMoves info request with
  | false =>
      rw [renameApplyLocal_of_not_moves moves ok]
      exact order
  | true =>
      obtain ⟨src, newParentEntry, current⟩ :=
        current_of_fits directory valid (fits moves)
      have applied := current.applied order.wf ok
      exact ⟨applied.wellFormed order.wf, order.counted.applied order.wf applied⟩

end

theorem InOrder.applyOp {before after : InodeTable} (order : before.InOrder)
    {op : TableOp} (fits : before.Fits op)
    (applied : before.applyOp op = some after) : after.InOrder := by
  cases op with
  | insert parent name fullPath kind size mtime xetHash mode uid gid now =>
      simp only [InodeTable.applyOp, Option.ite_none_right_eq_some,
        Bool.and_eq_true, decide_eq_true_eq, Option.some.injEq] at applied
      obtain ⟨⟨isDirectory, valid⟩, rfl⟩ := applied
      obtain ⟨parentEntry, found, directory⟩ := isDirectory_iff.mp isDirectory
      exact order.insert found directory valid
        (fun unmapped => fits unmapped parentEntry found) kind size mtime
        xetHash mode uid gid now
  | update ino field =>
      obtain rfl := Option.some.inj applied
      exact order.update ino field.same
  | unlinkOne parent name now =>
      obtain rfl := Option.some.inj applied
      exact order.unlinkOne fits now
  | removeOrphan ino =>
      obtain rfl := Option.some.inj applied
      exact ⟨(order.counted.removeOrphan order.wf ino).1,
        (order.counted.removeOrphan order.wf ino).2⟩
  | remove ino =>
      simp only [InodeTable.applyOp, Option.ite_none_left_eq_some,
        Option.some.injEq] at applied
      obtain ⟨notRoot, rfl⟩ := applied
      cases found : before.get ino with
      | none =>
          have same : before.remove ino = before := by
            simp only [InodeTable.remove, found]
          rw [same]
          exact order
      | some entry => exact order.remove found notRoot (fits entry found)
  | removeRemoteFile ino now =>
      simp only [InodeTable.applyOp, Option.ite_none_right_eq_some,
        Option.some.injEq] at applied
      obtain ⟨file, rfl⟩ := applied
      refine order.removeRemoteFile ?_ fits now
      intro entry found
      rw [found] at file
      exact of_decide_eq_true file
  | evictIfSafe ino =>
      obtain rfl := Option.some.inj applied
      exact order.evictIfSafe ino
  | evictBatchIfSafe inos =>
      obtain rfl := Option.some.inj applied
      exact order.evictBatchIfSafe inos
  | renameApplyLocal info request now =>
      simp only [InodeTable.applyOp, Option.ite_none_right_eq_some,
        Bool.and_eq_true, decide_eq_true_eq] at applied
      obtain ⟨⟨directory, valid⟩, applied⟩ := applied
      split at applied <;> rename_i result
      · obtain rfl := Option.some.inj applied
        refine order.renameApplyLocal ?_ valid fits result
        intro entry found
        rw [found] at directory
        exact of_decide_eq_true directory
      · obtain rfl := Option.some.inj applied
        exact order

/-! ## The indexes of a table in order -/

theorem InOrder.live_of_nlink {table : InodeTable} (order : table.InOrder)
    {ino : Ino} {entry : InodeEntry} (found : table.get ino = some entry) :
    entry.isLive = true ↔ 0 < entry.nlink := by
  by_cases directory : entry.kind = .directory
  · have count := order.counted ino entry found directory
    simp only [InodeEntry.isLive, directory, decide_true, Bool.true_or,
      true_iff]
    omega
  · simp [InodeEntry.isLive, directory]

theorem InOrder.indexesAgree {table : InodeTable} (order : table.InOrder) :
    table.IndexesAgree := by
  have wf := order.wf
  constructor
  · intro ino entry found _
    have indexed := wf.indexed found
    refine ⟨indexed.index, ?_⟩
    apply List.Nodup.map_on _ indexed.children_nodup
    rintro ⟨left, leftName⟩ listedLeft ⟨right, rightName⟩ listedRight same
    obtain rfl : leftName = rightName := same
    rw [indexed.ino_eq listedLeft listedRight]
  · intro ino entry found links notRoot dir name
    have live := (order.live_of_nlink found).mpr links
    obtain ⟨parentEntry, foundParent, directory, _, listed, _⟩ :=
      wf.parent found notRoot live
    constructor
    · rintro ⟨dirEntry, foundDir, _, inChildren⟩
      obtain ⟨childEntry, isChild⟩ := wf.child foundDir inChildren
      obtain rfl := Option.some.inj (isChild.found.symm.trans found)
      exact ⟨isChild.parent.symm, isChild.name.symm⟩
    · rintro ⟨rfl, rfl⟩
      exact ⟨parentEntry, foundParent, directory, listed⟩
  · intro path ino
    rw [wf.path]
    constructor
    · rintro ⟨entry, found, live, fullPath⟩
      exact ⟨entry, found, (order.live_of_nlink found).mp live, fullPath⟩
    · rintro ⟨entry, found, links, fullPath⟩
      exact ⟨entry, found, (order.live_of_nlink found).mpr links, fullPath⟩
  · intro ino entry found links notRoot
    obtain ⟨parentEntry, foundParent, _, _, _, fullPath⟩ :=
      wf.parent found notRoot ((order.live_of_nlink found).mpr links)
    exact ⟨parentEntry, foundParent, fullPath⟩
  · intro ino entry found links
    apply Relation.reflTransGen_swap.mp
    refine Relation.ReflTransGen.mono ?_ _ _
      (wf.below_root found ((order.live_of_nlink found).mpr links))
    rintro upper lower ⟨upperEntry, name, foundUpper, listed⟩
    obtain ⟨lowerEntry, isChild⟩ := wf.child foundUpper listed
    exact ⟨lowerEntry, isChild.found, isChild.parent⟩
  · exact order.counted

/-- In every run whose operations fit the table that they change, the indexes
of the table agree at the end. -/
theorem indexesAgree_of_fits {ops : List TableOp} {final : InodeTable}
    (fits : AllSteps applyOp Fits new ops)
    (run : exec applyOp new ops = some final) : final.IndexesAgree :=
  InOrder.indexesAgree
    (exec_invariant
      (fun _ _ _ order fit applied => InOrder.applyOp order fit applied)
      inOrder_new fits run)

def opened : FieldChange :=
  { change := fun entry => { entry with eviction := { entry.eviction with
      openHandles := entry.eviction.openHandles + 1 } }
    same := fun _ =>
      .of_fields rfl }

/-- A file `a` is unlinked while it is open, and created again. -/
def recreatedWhileOpen : List TableOp :=
  [.insert rootInode ['a'] ['a'] .file 0 0 none 420 0 0 0,
    .update 2 opened,
    .unlinkOne rootInode ['a'] 1,
    .insert rootInode ['a'] ['a'] .file 0 2 none 420 0 0 2]

/-- The last handle is closed, and the new file moves into a directory that is
renamed later. -/
def releasedAndMoved : List TableOp :=
  [.removeOrphan 2,
    .insert rootInode ['d'] ['d'] .directory 0 3 none 493 0 0 3,
    .renameApplyLocal ⟨3, ['a'], .file, none, false, ['d', '/', 'b'], []⟩
      ⟨rootInode, ['a'], 4, ['b'], false⟩ 4,
    .renameApplyLocal ⟨4, ['d'], .directory, none, false, ['e'], []⟩
      ⟨rootInode, ['d'], rootInode, ['e'], false⟩ 5]

theorem indexesAgree_of_fits_released_and_moved :
    ((exec applyOp new (recreatedWhileOpen ++ releasedAndMoved)).get
      (by decide)).IndexesAgree :=
  indexesAgree_of_fits (by decide) (Option.some_get _).symm

/-- A revalidation removes the orphan by its inode number and drops the path
of the new file. -/
theorem indexes_disagree : ¬ ∀ (ops : List TableOp) (final : InodeTable),
    exec applyOp new ops = some final → final.IndexesAgree := by
  intro claim
  have agree := claim (recreatedWhileOpen ++ [.remove 2]) _
    (Option.some_get (by decide)).symm
  have mapped := (agree.path ['a'] 3).mpr ⟨_, rfl, by decide, rfl⟩
  cases mapped

end InodeTable

end HfMount.Inode
