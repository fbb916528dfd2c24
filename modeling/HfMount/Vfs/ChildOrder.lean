import HfMount.Vfs.TableRuns

/-!
# The order of children

Every operation leaves the children of a directory in their order.  It may
take some out, and what it adds comes last.
-/

namespace HfMount.Inode

open SlashPath Poll

variable {fresh : DirChild → Prop}

/-- Some children have gone, and fresh ones have come at the end. -/
def Trimmed (fresh : DirChild → Prop) (before after : List DirChild) : Prop :=
  ∃ kept added, after = kept ++ added ∧ kept.Sublist before ∧
    ∀ child ∈ added, fresh child

theorem Trimmed.of_sublist {before after : List DirChild}
    (sublist : after.Sublist before) : Trimmed fresh before after :=
  ⟨after, [], (List.append_nil _).symm, sublist, by simp⟩

theorem Trimmed.refl (children : List DirChild) :
    Trimmed fresh children children :=
  .of_sublist (.refl _)

theorem Trimmed.trans {first second third : List DirChild}
    (left : Trimmed fresh first second) (right : Trimmed fresh second third) :
    Trimmed fresh first third := by
  obtain ⟨kept, added, rfl, sublist, isFresh⟩ := left
  obtain ⟨later, more, rfl, sublistLater, moreFresh⟩ := right
  obtain ⟨front, back, rfl, frontKept, backAdded⟩ :=
    List.sublist_append_iff.mp sublistLater
  refine ⟨front, back ++ more, List.append_assoc _ _ _,
    frontKept.trans sublist, ?_⟩
  intro child member
  rcases List.mem_append.mp member with old | new
  · exact isFresh child (backAdded.subset old)
  · exact moreFresh child new

/-- Children that all stay are the first ones still. -/
theorem Trimmed.prefix_iff {before after : List DirChild}
    (trimmed : Trimmed fresh before after) (nodup : before.Nodup) {count : Nat}
    (apart : ∀ child ∈ before.take count, ¬ fresh child) :
    before.take count <+: after ↔
      ∀ child ∈ before.take count, child ∈ after := by
  obtain ⟨kept, added, rfl, sublist, isFresh⟩ := trimmed
  constructor
  · intro first child member
    exact first.subset member
  · intro stays
    rw [← List.take_append_drop count before] at sublist nodup
    obtain ⟨front, back, rfl, frontPassed, backRest⟩ :=
      List.sublist_append_iff.mp sublist
    have disjoint := (List.nodup_append'.mp nodup).2.2
    -- A passed child that stays is neither fresh nor among the later ones.
    have inFront : before.take count ⊆ front := by
      intro child member
      rcases List.mem_append.mp (stays child member) with old | new
      · rcases List.mem_append.mp old with here | later
        · exact here
        · exact absurd (backRest.subset later) (disjoint member)
      · exact absurd (isFresh child new) (apart child member)
    have passed := (List.nodup_append'.mp nodup).1
    have same := frontPassed.eq_of_length_le
      (List.subperm_of_subset passed inFront).length_le
    rw [same, List.append_assoc]
    exact List.prefix_append _ _

namespace InodeTable

/-- Every directory that is still there has its children in order, and
numbers are not given out again. -/
structure Trims (fresh : DirChild → Prop) (before after : InodeTable) : Prop
    where
  next : before.nextInode ≤ after.nextInode
  entry : ∀ {ino : Ino} {other : InodeEntry}, after.get ino = some other →
    before.nextInode ≤ ino ∨ ∃ entry, before.get ino = some entry ∧
      Trimmed fresh entry.children other.children

theorem Trims.refl (table : InodeTable) : Trims fresh table table :=
  ⟨le_rfl, fun found => Or.inr ⟨_, found, .refl _⟩⟩

theorem Trims.trans {first second third : InodeTable}
    (left : Trims fresh first second) (right : Trims fresh second third) :
    Trims fresh first third := by
  refine ⟨left.next.trans right.next, ?_⟩
  intro ino last found
  rcases right.entry found with new | ⟨middle, foundMiddle, later⟩
  · exact Or.inl (left.next.trans new)
  rcases left.entry foundMiddle with new | ⟨entry, foundEntry, earlier⟩
  · exact Or.inl new
  · exact Or.inr ⟨entry, foundEntry, earlier.trans later⟩

/-! ## The parts of the operations -/

theorem trims_put {table : InodeTable} {ino : Ino} {entry other : InodeEntry}
    (found : table.get ino = some entry)
    (trimmed : Trimmed fresh entry.children other.children) :
    Trims fresh table (table.put ino other) := by
  refine ⟨le_rfl, ?_⟩
  intro target targetEntry got
  rw [get_put] at got
  split at got <;> rename_i here
  · obtain rfl := Option.some.inj got
    exact Or.inr ⟨entry, here ▸ found, trimmed⟩
  · exact Or.inr ⟨targetEntry, got, .refl _⟩

theorem trims_modify (table : InodeTable) (ino : Ino)
    {change : InodeEntry → InodeEntry}
    (trimmed : ∀ entry : InodeEntry,
      Trimmed fresh entry.children (change entry).children) :
    Trims fresh table (table.modify ino change) := by
  cases found : table.get ino with
  | none =>
      rw [modify_of_none found]
      exact .refl table
  | some entry =>
      rw [modify_of_some found]
      exact trims_put found (trimmed entry)

/-- A change of other fields. -/
theorem trims_fields (table : InodeTable) (ino : Ino)
    {change : InodeEntry → InodeEntry}
    (same : ∀ entry : InodeEntry, (change entry).children = entry.children) :
    Trims fresh table (table.modify ino change) := by
  apply trims_modify
  intro entry
  rw [same]
  exact .refl _

theorem trims_removePath (table : InodeTable) (path : Path) :
    Trims fresh table (table.removePath path) :=
  ⟨le_rfl, fun found => Or.inr ⟨_, found, .refl _⟩⟩

theorem trims_insertPath (table : InodeTable) (path : Path) (ino : Ino) :
    Trims fresh table (table.insertPath path ino) :=
  ⟨le_rfl, fun found => Or.inr ⟨_, found, .refl _⟩⟩

theorem trims_erase (table : InodeTable) (ino : Ino) :
    Trims fresh table (table.erase ino) := by
  refine ⟨le_rfl, ?_⟩
  intro other entry got
  rw [get_erase] at got
  split at got
  · cases got
  · exact Or.inr ⟨entry, got, .refl _⟩

theorem trims_forget (table : InodeTable) (ino : Ino) (path : Path) :
    Trims fresh table ((table.erase ino).removePath path) :=
  (trims_erase table ino).trans (trims_removePath _ path)

theorem trims_foldl {α : Type} {change : InodeTable → α → InodeTable}
    (each : ∀ (table : InodeTable) (item : α),
      Trims fresh table (change table item)) (items : List α)
    (table : InodeTable) : Trims fresh table (items.foldl change table) := by
  induction items generalizing table with
  | nil => exact .refl table
  | cons item items ih => exact (each table item).trans (ih _)

theorem trimmed_removeChildByIno (entry : InodeEntry) (ino : Ino) :
    Trimmed fresh entry.children (entry.removeChildByIno ino).children := by
  unfold InodeEntry.removeChildByIno
  split
  · exact .refl _
  · exact .of_sublist List.eraseP_sublist

theorem trimmed_removeChildByName (entry : InodeEntry) (name : Name) :
    Trimmed fresh entry.children (entry.removeChildByName name).children := by
  unfold InodeEntry.removeChildByName
  split
  · exact .refl _
  · exact .of_sublist List.eraseP_sublist

theorem trimmed_addChild (entry : InodeEntry) {ino : Ino} {name : Name}
    (isFresh : fresh ⟨ino, name⟩) :
    Trimmed fresh entry.children (entry.addChild ino name).children := by
  refine ⟨entry.children, [⟨ino, name⟩], rfl, .refl _, ?_⟩
  intro child member
  rw [List.mem_singleton.mp member]
  exact isFresh

/-! ## The operations -/

theorem trims_unlinkOne (table : InodeTable) (parent : Ino) (name : Name)
    (now : Time) : Trims fresh table (table.unlinkOne parent name now).2 := by
  unfold unlinkOne
  split
  · exact .refl table
  split
  · exact .refl table
  have unnamed : ∀ path, Trims fresh table
      ((table.modify parent (·.removeChildByName name)).removePath path) :=
    fun path => (trims_modify table parent
      (trimmed_removeChildByName · name)).trans (trims_removePath _ path)
  dsimp only
  split <;> rename_i found
  · exact unnamed _
  · exact (unnamed _).trans (trims_put found (.refl _))

theorem trims_removeOrphan (table : InodeTable) (ino : Ino) :
    Trims fresh table (table.removeOrphan ino) := by
  unfold removeOrphan
  split
  · split
    · split
      · exact trims_forget table ino _
      · exact trims_erase table ino
    · exact .refl table
  · exact .refl table

theorem trims_dropEntry (table : InodeTable) (ino : Ino) :
    Trims fresh table (table.dropEntry ino) := by
  unfold dropEntry
  split
  · exact trims_forget table ino _
  · exact .refl table

theorem trims_remove (table : InodeTable) (ino : Ino) :
    Trims fresh table (table.remove ino) := by
  unfold remove
  split
  · exact .refl table
  · refine ((trims_dropEntry table ino).trans ?_).trans
      (trims_foldl trims_dropEntry _ _)
    exact trims_modify _ _ (trimmed_removeChildByIno · ino)

theorem trims_removeRemoteFile (table : InodeTable) (ino : Ino) (now : Time) :
    Trims fresh table (Poll.removeRemoteFile table ino now).2.1 := by
  unfold Poll.removeRemoteFile
  split
  · exact .refl table
  split
  · exact .refl table
  dsimp only
  split
  · exact trims_unlinkOne _ _ _ _
  · exact trims_remove _ _

theorem trims_evictIfSafe (table : InodeTable) (ino : Ino) :
    Trims fresh table (table.evictIfSafe ino).2 := by
  unfold InodeTable.evictIfSafe
  split
  · exact .refl table
  split
  · exact (trims_forget table ino _).trans
      (trims_modify _ _ (trimmed_removeChildByIno · ino))
  · exact .refl table

theorem trims_evictBatchIfSafe (table : InodeTable) (inos : List Ino) :
    Trims fresh table (table.evictBatchIfSafe inos).2 := by
  unfold InodeTable.evictBatchIfSafe
  dsimp only
  refine (trims_foldl ?_ _ table).trans (trims_foldl ?_ _ _)
  · intro current entry
    refine (trims_forget current entry.inode entry.fullPath).trans ?_
    exact trims_fields _ _ fun _ => rfl
  · intro current parent
    apply trims_modify
    intro entry
    exact .of_sublist List.filter_sublist

theorem trims_replaceTarget (table : InodeTable) (existing : InodeEntry)
    (request : RenameRequest) (now : Time) :
    Trims fresh table (table.replaceTarget existing request now).2 := by
  unfold InodeTable.replaceTarget
  split
  · exact trims_remove _ _
  dsimp only
  split
  · exact (trims_unlinkOne _ _ _ _).trans (trims_removeOrphan _ _)
  · exact trims_unlinkOne _ _ _ _

theorem trims_moveChild (table : InodeTable) {ino : Ino} (oldParent : Ino)
    (oldName : Name) (newParent : Ino) {newName : Name}
    (isFresh : fresh ⟨ino, newName⟩) :
    Trims fresh table (table.moveChild ino oldParent oldName newParent newName) := by
  have attached : Trims fresh table
      ((table.modify oldParent (·.removeChildByName oldName)).modify newParent
        (·.addChild ino newName)) :=
    (trims_modify table oldParent (trimmed_removeChildByName · oldName)).trans
      (trims_modify _ newParent (trimmed_addChild · isFresh))
  unfold moveChild
  dsimp only
  have counted : ∀ (current : InodeTable) (parent : Ino)
      (count : Nat → Nat), Trims fresh current (current.modify parent
        fun entry => { entry with nlink := count entry.nlink }) :=
    fun current parent _ => trims_fields current parent fun _ => rfl
  refine Trims.trans ?_ (trims_fields _ ino fun _ => rfl)
  split
  · exact (attached.trans (counted _ oldParent (· - 1))).trans
      (counted _ newParent (· + 1))
  · exact attached

theorem trims_updateSubtreePaths (table : InodeTable) (ino : Ino)
    (path : Path) : Trims fresh table (table.updateSubtreePaths ino path) := by
  unfold updateSubtreePaths
  rw [updateSubtreePathsFrom_eq]
  apply trims_foldl
  intro current move
  unfold setPath
  split <;> rename_i found
  · refine Trims.trans ?_ (trims_insertPath _ _ _)
    exact (trims_removePath current _).trans (trims_put found (.refl _))
  · exact .refl current

theorem trims_moveRenamed (table : InodeTable) {info : RenameInfo}
    {request : RenameRequest} (isFresh : fresh ⟨info.ino, request.newname⟩)
    (now : Time) :
    Trims fresh table (table.moveRenamed info request now) := by
  have owing := table.owing_record info
  have recorded : Trims fresh table
      ((table.recordOldPath info).recordDescendants info) := by
    refine ⟨owing.nextInode.ge, ?_⟩
    intro ino other found
    obtain ⟨entry, foundEntry, pending, rfl⟩ := owing.backward found
    exact Or.inr ⟨entry, foundEntry, .refl _⟩
  have moved := (recorded.trans (trims_removePath _ info.oldPath)).trans
    ((trims_moveChild (((table.recordOldPath info).recordDescendants
      info).removePath info.oldPath) request.parent request.name
        request.newparent isFresh).trans
      (trims_updateSubtreePaths _ info.ino info.newFullPath))
  have touched : ∀ (current : InodeTable) (parent : Ino),
      Trims fresh current (current.touchParent parent now) :=
    fun current parent => trims_fields current parent fun _ => rfl
  rw [moveRenamed_eq]
  refine moved.trans ?_
  unfold touchRenamed
  refine Trims.trans ?_ (trims_fields _ info.ino fun _ => rfl)
  split
  · exact touched _ _
  · exact (touched _ _).trans (touched _ _)

theorem trims_renameApplyLocal {table after : InodeTable} {info : RenameInfo}
    {request : RenameRequest} {now : Time} {dropped : Option Ino}
    (isFresh : fresh ⟨info.ino, request.newname⟩)
    (ok : table.renameApplyLocal info request now = .ok (dropped, after)) :
    Trims fresh table after := by
  unfold renameApplyLocal at ok
  split at ok
  · cases ok
  split at ok
  · obtain ⟨-, rfl⟩ := Prod.mk.inj (Except.ok.inj ok)
    exact trims_moveRenamed _ isFresh _
  split at ok
  · obtain ⟨-, rfl⟩ := Prod.mk.inj (Except.ok.inj ok)
    exact .refl table
  split at ok
  · cases ok
  · obtain ⟨-, rfl⟩ := Prod.mk.inj (Except.ok.inj ok)
    exact (table.trims_replaceTarget _ request now).trans
      (trims_moveRenamed _ isFresh _)

theorem trims_insert (table : InodeTable) (parent : Ino) {name : Name}
    (fullPath : Path) (kind : InodeKind) (size : Nat) (mtime : Time)
    (xetHash : Option Hash) (mode uid gid : Nat) (now : Time)
    (isFresh : fresh ⟨table.nextInode, name⟩) :
    Trims fresh table (table.insert parent name fullPath kind size mtime
      xetHash mode uid gid now).2 := by
  unfold insert
  split
  · exact trims_fields _ _ fun _ => rfl
  have numbered : ∀ entry : InodeEntry, Trims fresh table { table with
      inodes := table.inodes.insert table.nextInode entry
      pathToInode := Function.update table.pathToInode fullPath
        (some table.nextInode)
      nextInode := table.nextInode + 1
      touchCounter := table.touchCounter + 1 } := by
    intro entry
    refine ⟨Nat.le_succ _, ?_⟩
    intro ino other found
    by_cases new : ino = table.nextInode
    · exact Or.inl new.ge
    · exact Or.inr ⟨other, (AList.lookup_insert_ne new).symm.trans found,
        .refl _⟩
  have added : ∀ current : InodeTable, Trims fresh current
      (current.modify parent fun parentEntry =>
        let added := parentEntry.addChild table.nextInode name
        { added with
          nlink := if kind = .directory then added.nlink + 1
            else added.nlink }) :=
    fun current => trims_modify current parent fun entry =>
      trimmed_addChild entry isFresh
  exact (numbered _).trans (added _)

/-- The child that an operation may add. -/
def Adds (table : InodeTable) : TableOp → DirChild → Prop
  | .insert _ name _ _ _ _ _ _ _ _ _, child => child = ⟨table.nextInode, name⟩
  | .renameApplyLocal info request _, child =>
      table.renameMoves info request = true ∧
        child = ⟨info.ino, request.newname⟩
  | _, _ => False

instance (table : InodeTable) : ∀ op, DecidablePred (table.Adds op)
  | .insert _ name _ _ _ _ _ _ _ _ _ => fun child =>
      inferInstanceAs (Decidable (child = ⟨table.nextInode, name⟩))
  | .renameApplyLocal info request _ => fun child =>
      inferInstanceAs (Decidable (table.renameMoves info request = true ∧
        child = ⟨info.ino, request.newname⟩))
  | .update _ _ | .unlinkOne _ _ _ | .removeOrphan _ | .remove _
  | .removeRemoteFile _ _ | .evictIfSafe _ | .evictBatchIfSafe _ =>
      fun _ => isFalse id

theorem trims_applyOp {table after : InodeTable} {op : TableOp}
    (applied : table.applyOp op = some after) :
    Trims (table.Adds op) table after := by
  cases op with
  | insert parent name fullPath kind size mtime xetHash mode uid gid now =>
      simp only [applyOp, Option.ite_none_right_eq_some,
        Option.some.injEq] at applied
      obtain ⟨_, rfl⟩ := applied
      exact trims_insert table parent fullPath kind size mtime xetHash mode
        uid gid now rfl
  | update ino field =>
      obtain rfl := Option.some.inj applied
      exact trims_fields table ino fun entry => (field.same entry).children
  | unlinkOne parent name now =>
      obtain rfl := Option.some.inj applied
      exact trims_unlinkOne table parent name now
  | removeOrphan ino =>
      obtain rfl := Option.some.inj applied
      exact trims_removeOrphan table ino
  | remove ino =>
      simp only [applyOp, Option.ite_none_left_eq_some,
        Option.some.injEq] at applied
      obtain ⟨_, rfl⟩ := applied
      exact trims_remove table ino
  | removeRemoteFile ino now =>
      simp only [applyOp, Option.ite_none_right_eq_some,
        Option.some.injEq] at applied
      obtain ⟨_, rfl⟩ := applied
      exact trims_removeRemoteFile table ino now
  | evictIfSafe ino =>
      obtain rfl := Option.some.inj applied
      exact trims_evictIfSafe table ino
  | evictBatchIfSafe inos =>
      obtain rfl := Option.some.inj applied
      exact trims_evictBatchIfSafe table inos
  | renameApplyLocal info request now =>
      simp only [applyOp, Option.ite_none_right_eq_some] at applied
      obtain ⟨_, applied⟩ := applied
      split at applied <;> rename_i result
      · obtain rfl := Option.some.inj applied
        cases moves : table.renameMoves info request with
        | false =>
            rw [renameApplyLocal_of_not_moves moves result]
            exact .refl table
        | true => exact trims_renameApplyLocal ⟨moves, rfl⟩ result
      · obtain rfl := Option.some.inj applied
        exact .refl table

end InodeTable

end HfMount.Inode
