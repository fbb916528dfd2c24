import HfMount.Vfs.TableRuns

/-!
# Files stay leaves

Whatever operations run, and whether or not they fit the table, a file never
gets children, an inode keeps its kind, and an inode number is never used
again.
-/

namespace HfMount.Inode

open SlashPath Poll

structure InodeEntry.SameIdentity (left right : InodeEntry) : Prop where
  inode : right.inode = left.inode
  kind : right.kind = left.kind

namespace InodeTable

/-- No inode is new, kinds stay, and a file without children has none. -/
structure Tapers (before after : InodeTable) : Prop where
  entry : ∀ {ino : Ino} {other : InodeEntry}, after.get ino = some other →
    ∃ entry : InodeEntry, before.get ino = some entry ∧
      entry.SameIdentity other ∧
      (entry.kind = .file → entry.children = [] → other.children = [])
  nextInode : after.nextInode = before.nextInode

theorem Tapers.refl (table : InodeTable) : table.Tapers table :=
  ⟨fun found => ⟨_, found, ⟨rfl, rfl⟩, fun _ same => same⟩, rfl⟩

theorem Tapers.trans {first second third : InodeTable}
    (left : first.Tapers second) (right : second.Tapers third) :
    first.Tapers third := by
  refine ⟨?_, right.nextInode.trans left.nextInode⟩
  intro ino last found
  obtain ⟨middle, foundMiddle, sameRight, leafRight⟩ := right.entry found
  obtain ⟨entry, foundEntry, sameLeft, leafLeft⟩ := left.entry foundMiddle
  refine ⟨entry, foundEntry, ⟨sameRight.inode.trans sameLeft.inode,
    sameRight.kind.trans sameLeft.kind⟩, ?_⟩
  intro file leaf
  exact leafRight (sameLeft.kind.trans file) (leafLeft file leaf)

/-- The kind of an inode that is there, or that was, is a directory's. -/
theorem Tapers.directory {before after : InodeTable}
    (tapers : before.Tapers after) {ino : Ino}
    (directory : ∀ entry, before.get ino = some entry →
      entry.kind = .directory) :
    ∀ entry, after.get ino = some entry → entry.kind = .directory := by
  intro other found
  obtain ⟨entry, foundEntry, same, _⟩ := tapers.entry found
  exact same.kind.trans (directory entry foundEntry)

/-! ## The parts of the operations -/

theorem tapers_put {table : InodeTable} {ino : Ino} {entry other : InodeEntry}
    (found : table.get ino = some entry) (same : entry.SameIdentity other)
    (leaf : entry.kind = .file → entry.children = [] → other.children = []) :
    table.Tapers (table.put ino other) := by
  refine ⟨?_, rfl⟩
  intro target targetEntry got
  rw [get_put] at got
  split at got <;> rename_i here
  · subst here
    obtain rfl := Option.some.inj got
    exact ⟨entry, found, same, leaf⟩
  · exact ⟨targetEntry, got, ⟨rfl, rfl⟩, fun _ leaf => leaf⟩

theorem tapers_modify (table : InodeTable) (ino : Ino)
    {change : InodeEntry → InodeEntry}
    (same : ∀ entry : InodeEntry, entry.SameIdentity (change entry))
    (leaf : ∀ entry, table.get ino = some entry → entry.kind = .file →
      entry.children = [] → (change entry).children = []) :
    table.Tapers (table.modify ino change) := by
  cases found : table.get ino with
  | none =>
      rw [modify_of_none found]
      exact .refl table
  | some entry =>
      rw [modify_of_some found]
      exact tapers_put found (same entry) (leaf entry found)

theorem tapers_erase (table : InodeTable) (ino : Ino) :
    table.Tapers (table.erase ino) := by
  refine ⟨?_, rfl⟩
  intro other entry got
  rw [get_erase] at got
  split at got
  · cases got
  · exact ⟨entry, got, ⟨rfl, rfl⟩, fun _ leaf => leaf⟩

theorem tapers_removePath (table : InodeTable) (path : Path) :
    table.Tapers (table.removePath path) :=
  ⟨fun found => ⟨_, found, ⟨rfl, rfl⟩, fun _ leaf => leaf⟩, rfl⟩

theorem tapers_insertPath (table : InodeTable) (path : Path) (ino : Ino) :
    table.Tapers (table.insertPath path ino) :=
  ⟨fun found => ⟨_, found, ⟨rfl, rfl⟩, fun _ leaf => leaf⟩, rfl⟩

theorem tapers_forget (table : InodeTable) (ino : Ino) (path : Path) :
    table.Tapers ((table.erase ino).removePath path) :=
  (tapers_erase table ino).trans (tapers_removePath _ path)

theorem tapers_foldl {α : Type} {change : InodeTable → α → InodeTable}
    (each : ∀ (table : InodeTable) (item : α),
      table.Tapers (change table item)) (items : List α)
    (table : InodeTable) : table.Tapers (items.foldl change table) := by
  induction items generalizing table with
  | nil => exact .refl table
  | cons item items ih => exact (each table item).trans (ih _)

theorem children_removeChildByIno {entry : InodeEntry} (ino : Ino)
    (leaf : entry.children = []) : (entry.removeChildByIno ino).children = [] := by
  unfold InodeEntry.removeChildByIno
  rw [leaf]
  exact leaf

theorem children_removeChildByName {entry : InodeEntry} (name : Name)
    (leaf : entry.children = []) :
    (entry.removeChildByName name).children = [] := by
  unfold InodeEntry.removeChildByName
  split
  · exact leaf
  · rw [leaf]
    rfl

theorem tapers_removeChildByName (table : InodeTable) (ino : Ino)
    (name : Name) :
    table.Tapers (table.modify ino (·.removeChildByName name)) := by
  apply tapers_modify
  · intro entry
    unfold InodeEntry.removeChildByName
    split <;> exact ⟨rfl, rfl⟩
  · exact fun entry _ _ leaf => children_removeChildByName name leaf

theorem same_removeChildByIno (entry : InodeEntry) (ino : Ino) :
    entry.SameIdentity (entry.removeChildByIno ino) := by
  unfold InodeEntry.removeChildByIno
  split <;> exact ⟨rfl, rfl⟩

/-- A change of fields leaves kinds and children alone. -/
theorem tapers_fields (table : InodeTable) (ino : Ino)
    {change : InodeEntry → InodeEntry}
    (same : ∀ entry : InodeEntry, entry.SameIdentity (change entry))
    (children : ∀ entry, (change entry).children = entry.children) :
    table.Tapers (table.modify ino change) :=
  tapers_modify table ino same fun entry _ _ leaf =>
    (children entry).trans leaf

/-! ## The operations -/

theorem tapers_unlinkOne (table : InodeTable) (parent : Ino) (name : Name)
    (now : Time) : table.Tapers (table.unlinkOne parent name now).2 := by
  unfold unlinkOne
  split
  · exact .refl table
  split
  · exact .refl table
  have unnamed : ∀ path, table.Tapers
      ((table.modify parent (·.removeChildByName name)).removePath path) :=
    fun path => (tapers_removeChildByName table parent name).trans
      (tapers_removePath _ path)
  dsimp only
  split <;> rename_i found
  · exact unnamed _
  · exact (unnamed _).trans (tapers_put found ⟨rfl, rfl⟩ fun _ leaf => leaf)

theorem tapers_removeOrphan (table : InodeTable) (ino : Ino) :
    table.Tapers (table.removeOrphan ino) := by
  unfold removeOrphan
  split
  · split
    · split
      · exact tapers_forget table ino _
      · exact tapers_erase table ino
    · exact .refl table
  · exact .refl table

theorem tapers_dropEntry (table : InodeTable) (ino : Ino) :
    table.Tapers (table.dropEntry ino) := by
  unfold dropEntry
  split
  · exact tapers_forget table ino _
  · exact .refl table

theorem tapers_detachFromParent (table : InodeTable) (parent child : Ino)
    (kind : InodeKind) :
    table.Tapers (table.detachFromParent parent child kind) := by
  unfold detachFromParent
  apply tapers_modify
  · intro entry
    have same := same_removeChildByIno entry child
    exact ⟨same.inode, same.kind⟩
  · exact fun entry _ _ leaf => children_removeChildByIno child leaf

theorem tapers_remove (table : InodeTable) (ino : Ino) :
    table.Tapers (table.remove ino) := by
  unfold remove
  split
  · exact .refl table
  · exact ((tapers_dropEntry table ino).trans
      (tapers_detachFromParent _ _ _ _)).trans
        (tapers_foldl tapers_dropEntry _ _)

theorem tapers_removeRemoteFile (table : InodeTable) (ino : Ino) (now : Time) :
    table.Tapers (Poll.removeRemoteFile table ino now).2.1 := by
  unfold Poll.removeRemoteFile
  split
  · exact .refl table
  split
  · exact .refl table
  dsimp only
  split
  · exact tapers_unlinkOne _ _ _ _
  · exact tapers_remove _ _

theorem tapers_evictIfSafe (table : InodeTable) (ino : Ino) :
    table.Tapers (table.evictIfSafe ino).2 := by
  unfold InodeTable.evictIfSafe
  split
  · exact .refl table
  rename_i entry _
  split
  · refine (tapers_forget table ino entry.fullPath).trans ?_
    apply tapers_modify
    · intro entry
      have same := same_removeChildByIno entry ino
      exact ⟨same.inode, same.kind⟩
    · exact fun entry _ _ leaf => children_removeChildByIno ino leaf
  · exact .refl table

theorem tapers_evictBatchIfSafe (table : InodeTable) (inos : List Ino) :
    table.Tapers (table.evictBatchIfSafe inos).2 := by
  unfold InodeTable.evictBatchIfSafe
  dsimp only
  refine (tapers_foldl ?_ _ table).trans (tapers_foldl ?_ _ _)
  · intro current entry
    refine (tapers_forget current entry.inode entry.fullPath).trans ?_
    exact tapers_fields _ _ (fun _ => ⟨rfl, rfl⟩) fun _ => rfl
  · intro current parent
    apply tapers_modify
    · exact fun _ => ⟨rfl, rfl⟩
    · intro entry _ _ leaf
      dsimp only
      rw [leaf]
      rfl

theorem tapers_replaceTarget (table : InodeTable) (existing : InodeEntry)
    (request : RenameRequest) (now : Time) :
    table.Tapers (table.replaceTarget existing request now).2 := by
  unfold InodeTable.replaceTarget
  split
  · exact tapers_remove _ _
  dsimp only
  split
  · exact (tapers_unlinkOne _ _ _ _).trans (tapers_removeOrphan _ _)
  · exact tapers_unlinkOne _ _ _ _

theorem tapers_record (table : InodeTable) (info : RenameInfo) :
    table.Tapers ((table.recordOldPath info).recordDescendants info) := by
  have owing := table.owing_record info
  refine ⟨?_, owing.nextInode⟩
  intro ino other found
  obtain ⟨entry, foundEntry, pending, rfl⟩ := owing.backward found
  exact ⟨entry, foundEntry, ⟨rfl, rfl⟩, fun _ leaf => leaf⟩

theorem tapers_moveChild (table : InodeTable) (ino oldParent : Ino)
    (oldName : Name) (newParent : Ino) (newName : Name)
    (directory : ∀ entry, table.get newParent = some entry →
      entry.kind = .directory) :
    table.Tapers (table.moveChild ino oldParent oldName newParent newName) := by
  have detached := tapers_removeChildByName table oldParent oldName
  have attached : table.Tapers
      ((table.modify oldParent (·.removeChildByName oldName)).modify newParent
        (·.addChild ino newName)) := by
    refine detached.trans (tapers_modify _ _ (fun _ => ⟨rfl, rfl⟩) ?_)
    intro entry found file
    rw [detached.directory directory entry found] at file
    cases file
  unfold moveChild
  dsimp only
  have renamed : ∀ current : InodeTable, current.Tapers
      (current.modify ino fun entry =>
        { entry with
          parent := newParent
          name := newName }) := fun current =>
    tapers_fields current ino (fun _ => ⟨rfl, rfl⟩) fun _ => rfl
  have counted : ∀ (current : InodeTable) (parent : Ino)
      (count : Nat → Nat), current.Tapers (current.modify parent fun entry =>
        { entry with nlink := count entry.nlink }) :=
    fun current parent _ =>
      tapers_fields current parent (fun _ => ⟨rfl, rfl⟩) fun _ => rfl
  refine Tapers.trans ?_ (renamed _)
  split
  · exact (attached.trans (counted _ oldParent (· - 1))).trans
      (counted _ newParent (· + 1))
  · exact attached

theorem tapers_updateSubtreePaths (table : InodeTable) (ino : Ino)
    (path : Path) : table.Tapers (table.updateSubtreePaths ino path) := by
  unfold updateSubtreePaths
  rw [updateSubtreePathsFrom_eq]
  apply tapers_foldl
  intro current move
  unfold setPath
  split <;> rename_i found
  · rename_i entry
    refine Tapers.trans ?_ (tapers_insertPath _ _ _)
    refine (tapers_removePath current entry.fullPath).trans ?_
    exact tapers_put found ⟨rfl, rfl⟩ fun _ leaf => leaf
  · exact .refl current

theorem tapers_moveRenamed (table : InodeTable) (info : RenameInfo)
    (request : RenameRequest) (now : Time)
    (directory : ∀ entry, table.get request.newparent = some entry →
      entry.kind = .directory) :
    table.Tapers (table.moveRenamed info request now) := by
  have recorded := table.tapers_record info
  have free := recorded.trans
    (tapers_removePath _ info.oldPath)
  have moved := free.trans
    ((tapers_moveChild _ info.ino request.parent request.name
      request.newparent request.newname (free.directory directory)).trans
        (tapers_updateSubtreePaths _ info.ino info.newFullPath))
  have touched : ∀ (current : InodeTable) (parent : Ino),
      current.Tapers (current.touchParent parent now) := fun current parent =>
    tapers_fields current parent (fun _ => ⟨rfl, rfl⟩) fun _ => rfl
  rw [moveRenamed_eq]
  refine moved.trans ?_
  unfold touchRenamed
  have stamped : ∀ current : InodeTable, current.Tapers
      (current.modify info.ino fun entry => { entry with ctime := now }) :=
    fun current => tapers_fields current info.ino (fun _ => ⟨rfl, rfl⟩) fun _ => rfl
  refine Tapers.trans ?_ (stamped _)
  split
  · exact touched _ _
  · exact (touched _ _).trans (touched _ _)

theorem tapers_renameApplyLocal {table after : InodeTable} {info : RenameInfo}
    {request : RenameRequest} {now : Time} {dropped : Option Ino}
    (directory : ∀ entry, table.get request.newparent = some entry →
      entry.kind = .directory)
    (ok : table.renameApplyLocal info request now = .ok (dropped, after)) :
    table.Tapers after := by
  unfold renameApplyLocal at ok
  split at ok
  · cases ok
  split at ok
  · obtain ⟨-, rfl⟩ := Prod.mk.inj (Except.ok.inj ok)
    exact tapers_moveRenamed _ _ _ _ directory
  rename_i existing _
  split at ok
  · obtain ⟨-, rfl⟩ := Prod.mk.inj (Except.ok.inj ok)
    exact .refl table
  split at ok
  · cases ok
  · obtain ⟨-, rfl⟩ := Prod.mk.inj (Except.ok.inj ok)
    have replaced := table.tapers_replaceTarget existing request now
    exact replaced.trans
      (tapers_moveRenamed _ _ _ _ (replaced.directory directory))

/-! ## Every run -/

/-- Numbers are given out in order, and files have no children. -/
structure Leafy (table : InodeTable) : Prop where
  key : ∀ {ino : Ino} {entry : InodeEntry}, table.get ino = some entry →
    entry.inode = ino
  bounded : ∀ {ino : Ino} {entry : InodeEntry}, table.get ino = some entry →
    ino < table.nextInode
  leaf : ∀ {ino : Ino} {entry : InodeEntry}, table.get ino = some entry →
    entry.kind = .file → entry.children = []

/-- Kinds stay for the numbers that were given out. -/
structure Ages (before after : InodeTable) : Prop where
  nextInode : before.nextInode ≤ after.nextInode
  kind : ∀ {ino : Ino} {other : InodeEntry}, ino < before.nextInode →
    after.get ino = some other →
    ∃ entry, before.get ino = some entry ∧ other.kind = entry.kind

theorem Ages.refl (table : InodeTable) : table.Ages table :=
  ⟨Nat.le_refl _, fun _ found => ⟨_, found, rfl⟩⟩

theorem Ages.trans {first second third : InodeTable}
    (left : first.Ages second) (right : second.Ages third) :
    first.Ages third := by
  refine ⟨Nat.le_trans left.nextInode right.nextInode, ?_⟩
  intro ino last old found
  obtain ⟨middle, foundMiddle, kindRight⟩ :=
    right.kind (Nat.lt_of_lt_of_le old left.nextInode) found
  obtain ⟨entry, foundEntry, kindLeft⟩ := left.kind old foundMiddle
  exact ⟨entry, foundEntry, kindRight.trans kindLeft⟩

theorem WellFormed.leafy {table : InodeTable} (wf : table.WellFormed) :
    table.Leafy where
  key found := (wf.key found).1
  bounded found := (wf.key found).2
  leaf found file := wf.children_of_file found (by rw [file]; decide)

theorem leafy_new : new.Leafy := by
  constructor
  · intro ino entry found
    obtain ⟨rfl, rfl⟩ := eq_root_of_get_new found
    rfl
  · intro ino entry found
    obtain ⟨rfl, _⟩ := eq_root_of_get_new found
    decide
  · intro ino entry found _
    obtain ⟨_, rfl⟩ := eq_root_of_get_new found
    rfl

theorem Tapers.leafy {before after : InodeTable} (tapers : before.Tapers after)
    (leafy : before.Leafy) : after.Leafy ∧ before.Ages after := by
  refine ⟨⟨?_, ?_, ?_⟩, ⟨tapers.nextInode.ge, ?_⟩⟩
  · intro ino other found
    obtain ⟨entry, foundEntry, same, _⟩ := tapers.entry found
    exact same.inode.trans (leafy.key foundEntry)
  · intro ino other found
    obtain ⟨entry, foundEntry, _⟩ := tapers.entry found
    rw [tapers.nextInode]
    exact leafy.bounded foundEntry
  · intro ino other found file
    obtain ⟨entry, foundEntry, same, leaf⟩ := tapers.entry found
    have isFile := same.kind.symm.trans file
    exact leaf isFile (leafy.leaf foundEntry isFile)
  · intro ino other _ found
    obtain ⟨entry, foundEntry, same, _⟩ := tapers.entry found
    exact ⟨entry, foundEntry, same.kind⟩

theorem Leafy.insert {table : InodeTable} (leafy : table.Leafy) {parent : Ino}
    {name : Name} {fullPath : Path} {parentEntry : InodeEntry}
    (found : table.get parent = some parentEntry)
    (directory : parentEntry.kind = .directory) (kind : InodeKind)
    (size : Nat) (mtime : Time) (xetHash : Option Hash) (mode uid gid : Nat)
    (now : Time) :
    (table.insert parent name fullPath kind size mtime xetHash mode uid gid
        now).2.Leafy ∧
      table.Ages (table.insert parent name fullPath kind size mtime xetHash
        mode uid gid now).2 := by
  cases mapped : table.pathToInode fullPath with
  | some existing =>
      simp only [InodeTable.insert, mapped]
      have stamped : table.Tapers (table.modify existing fun entry =>
          { entry with lastRevalidated := some now }) :=
        tapers_fields table existing (fun _ => ⟨rfl, rfl⟩) fun _ => rfl
      exact stamped.leafy leafy
  | none =>
      obtain ⟨after, inserted, nextInode, _, gotNew, gotParent, others⟩ :=
        insert_unmapped found (leafy.bounded found) mapped name kind size mtime
          xetHash mode uid gid now
      rw [inserted]
      have split := @get_insert_cases _ _ _ _ _ _ gotNew gotParent others
      refine ⟨⟨?_, ?_, ?_⟩, ⟨?_, ?_⟩⟩
      · intro ino other got
        rcases split got with ⟨rfl, rfl⟩ | ⟨rfl, rfl⟩ | ⟨_, old⟩
        · rfl
        · have kept := leafy.key found
          exact kept
        · exact leafy.key old
      · intro ino other got
        rw [nextInode]
        rcases split got with ⟨rfl, _⟩ | ⟨rfl, _⟩ | ⟨_, old⟩
        · exact Nat.lt_succ_self _
        · exact Nat.lt_succ_of_lt (leafy.bounded found)
        · exact Nat.lt_succ_of_lt (leafy.bounded old)
      · intro ino other got file
        rcases split got with ⟨_, rfl⟩ | ⟨_, rfl⟩ | ⟨_, old⟩
        · rfl
        · exact absurd (directory.symm.trans file) (by decide)
        · exact leafy.leaf old file
      · exact nextInode ▸ Nat.le_succ _
      · intro ino other given got
        rcases split got with ⟨isNew, _⟩ | ⟨rfl, rfl⟩ | ⟨_, old⟩
        · exact absurd isNew (Nat.ne_of_lt given)
        · exact ⟨parentEntry, found, rfl⟩
        · exact ⟨other, old, rfl⟩

/-- Every operation keeps files leaves, also one that does not fit. -/
theorem Leafy.applyOp {before after : InodeTable} (leafy : before.Leafy)
    {op : TableOp} (applied : before.applyOp op = some after) :
    after.Leafy ∧ before.Ages after := by
  cases op with
  | insert parent name fullPath kind size mtime xetHash mode uid gid now =>
      simp only [InodeTable.applyOp, Option.ite_none_right_eq_some,
        Bool.and_eq_true, decide_eq_true_eq, Option.some.injEq] at applied
      obtain ⟨⟨isDirectory, _⟩, rfl⟩ := applied
      obtain ⟨parentEntry, found, directory⟩ := isDirectory_iff.mp isDirectory
      exact leafy.insert found directory kind size mtime xetHash mode uid gid
        now
  | update ino field =>
      obtain rfl := Option.some.inj applied
      exact (tapers_fields before ino (fun entry =>
          ⟨(field.same entry).inode, (field.same entry).kind⟩)
        fun entry => (field.same entry).children).leafy leafy
  | unlinkOne parent name now =>
      obtain rfl := Option.some.inj applied
      exact (tapers_unlinkOne _ _ _ _).leafy leafy
  | removeOrphan ino =>
      obtain rfl := Option.some.inj applied
      exact (tapers_removeOrphan _ _).leafy leafy
  | remove ino =>
      simp only [InodeTable.applyOp, Option.ite_none_left_eq_some,
        Option.some.injEq] at applied
      obtain ⟨_, rfl⟩ := applied
      exact (tapers_remove _ _).leafy leafy
  | removeRemoteFile ino now =>
      simp only [InodeTable.applyOp, Option.ite_none_right_eq_some,
        Option.some.injEq] at applied
      obtain ⟨_, rfl⟩ := applied
      exact (tapers_removeRemoteFile _ _ _).leafy leafy
  | evictIfSafe ino =>
      obtain rfl := Option.some.inj applied
      exact (tapers_evictIfSafe _ _).leafy leafy
  | evictBatchIfSafe inos =>
      obtain rfl := Option.some.inj applied
      exact (tapers_evictBatchIfSafe _ _).leafy leafy
  | renameApplyLocal info request now =>
      simp only [InodeTable.applyOp, Option.ite_none_right_eq_some,
        Bool.and_eq_true, decide_eq_true_eq] at applied
      obtain ⟨⟨directory, _⟩, applied⟩ := applied
      split at applied <;> rename_i result
      · obtain rfl := Option.some.inj applied
        refine (tapers_renameApplyLocal ?_ result).leafy leafy
        intro entry found
        rw [found] at directory
        exact of_decide_eq_true directory
      · obtain rfl := Option.some.inj applied
        exact (Tapers.refl before).leafy leafy

end InodeTable

end HfMount.Inode
