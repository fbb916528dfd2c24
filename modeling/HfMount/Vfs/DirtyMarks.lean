import HfMount.Vfs.TableRuns

/-!
# Who makes a file dirty

Only a write-open, a create, a write and a truncation advance the dirty
generation.  Every other operation on the inode table leaves the generation of
what it keeps, brings only clean inodes in, and does not link a file again
that has lost its last link.
-/

namespace HfMount.Inode

open SlashPath Poll

namespace InodeEntry

/-- A change that neither makes a file dirty nor links it again. -/
structure Calm (old new : InodeEntry) : Prop where
  kind : new.kind = old.kind
  inode : new.inode = old.inode
  generation : new.dirtyGeneration = old.dirtyGeneration
  linked : old.kind = .file → 0 < new.nlink → 0 < old.nlink

theorem Calm.refl (entry : InodeEntry) : entry.Calm entry :=
  ⟨rfl, rfl, rfl, fun _ linked => linked⟩

theorem Calm.trans {first second third : InodeEntry}
    (left : first.Calm second) (right : second.Calm third) :
    first.Calm third := by
  refine ⟨right.kind.trans left.kind, right.inode.trans left.inode,
    right.generation.trans left.generation, ?_⟩
  intro file linked
  exact left.linked file (right.linked (left.kind.trans file) linked)

/-- The number of links does not grow. -/
theorem calm_of_le {old new : InodeEntry} (kind : new.kind = old.kind)
    (inode : new.inode = old.inode)
    (generation : new.dirtyGeneration = old.dirtyGeneration)
    (links : new.nlink ≤ old.nlink) : old.Calm new :=
  ⟨kind, inode, generation, fun _ linked => Nat.lt_of_lt_of_le linked links⟩

theorem calm_removeChildByIno (entry : InodeEntry) (ino : Ino) :
    entry.Calm (entry.removeChildByIno ino) := by
  unfold removeChildByIno
  split
  · exact .refl entry
  · exact calm_of_le rfl rfl rfl (Nat.le_refl _)

theorem calm_removeChildByName (entry : InodeEntry) (name : Name) :
    entry.Calm (entry.removeChildByName name) := by
  unfold removeChildByName
  split
  · exact .refl entry
  · exact calm_of_le rfl rfl rfl (Nat.le_refl _)

end InodeEntry

/-- A change of fields does not make the inode dirty, nor link it again. -/
def TableOp.IsCalm : TableOp → Prop
  | .update _ field => ∀ entry : InodeEntry, entry.Calm (field.change entry)
  | _ => True

namespace InodeTable

/-- What is there was there before, and no dirtier. -/
def Calm (before after : InodeTable) : Prop :=
  ∀ ino new, after.get ino = some new →
    ∃ old, before.get ino = some old ∧ old.Calm new

/-- What is dirty was dirty before, under the same generation. -/
def Undirtied (before after : InodeTable) : Prop :=
  ∀ ino new, after.get ino = some new →
    (∃ old, before.get ino = some old ∧ old.Calm new) ∨
      new.dirtyGeneration = 0 ∧ new.inode = ino

theorem Calm.refl (table : InodeTable) : table.Calm table :=
  fun _ entry found => ⟨entry, found, .refl entry⟩

theorem Calm.trans {first second third : InodeTable}
    (left : first.Calm second) (right : second.Calm third) :
    first.Calm third := by
  intro ino new found
  obtain ⟨middle, foundMiddle, calm⟩ := right ino new found
  obtain ⟨old, foundOld, earlier⟩ := left ino middle foundMiddle
  exact ⟨old, foundOld, earlier.trans calm⟩

theorem Calm.undirtied {before after : InodeTable} (calm : before.Calm after) :
    before.Undirtied after :=
  fun ino new found => Or.inl (calm ino new found)

/-- A directory that is still there is one. -/
theorem Calm.directory {before after : InodeTable} (calm : before.Calm after)
    {ino : Ino} (directory : ∀ entry, before.get ino = some entry →
      entry.kind = .directory) {entry : InodeEntry}
    (found : after.get ino = some entry) : entry.kind = .directory := by
  obtain ⟨old, foundOld, same⟩ := calm ino entry found
  exact same.kind.trans (directory old foundOld)

section

variable {before table : InodeTable}

theorem calm_of_get (same : ∀ ino, table.get ino = before.get ino) :
    before.Calm table :=
  fun ino entry found => ⟨entry, same ino ▸ found, .refl entry⟩

theorem calm_removePath (table : InodeTable) (path : Path) :
    table.Calm (table.removePath path) := calm_of_get fun _ => rfl

theorem calm_put {ino : Ino} {old new : InodeEntry}
    (found : table.get ino = some old) (calm : old.Calm new) :
    table.Calm (table.put ino new) := by
  intro other entry foundOther
  rw [get_put] at foundOther
  split at foundOther <;> rename_i same
  · obtain rfl := Option.some.inj foundOther
    exact ⟨old, same ▸ found, calm⟩
  · exact ⟨entry, foundOther, .refl entry⟩

theorem calm_modify (table : InodeTable) (ino : Ino)
    {change : InodeEntry → InodeEntry}
    (calm : ∀ entry, table.get ino = some entry → entry.Calm (change entry)) :
    table.Calm (table.modify ino change) := by
  cases found : table.get ino with
  | none =>
      rw [modify_of_none found]
      exact .refl table
  | some entry =>
      rw [modify_of_some found]
      exact calm_put found (calm entry found)

theorem Calm.modify (calm : before.Calm table) {ino : Ino}
    {change : InodeEntry → InodeEntry}
    (fields : ∀ entry, table.get ino = some entry → entry.Calm (change entry)) :
    before.Calm (table.modify ino change) :=
  calm.trans (calm_modify table ino fields)

theorem undirtied_modify {ino : Ino} {change : InodeEntry → InodeEntry}
    (undirtied : before.Undirtied table)
    (calm : ∀ entry, table.get ino = some entry → entry.Calm (change entry)) :
    before.Undirtied (table.modify ino change) := by
  intro other new found
  obtain ⟨middle, foundMiddle, changed⟩ := calm_modify table ino calm other new
    found
  rcases undirtied other middle foundMiddle with ⟨old, foundOld, earlier⟩ |
    ⟨clean, key⟩
  · exact Or.inl ⟨old, foundOld, earlier.trans changed⟩
  · exact Or.inr ⟨changed.generation.trans clean, changed.inode.trans key⟩

theorem calm_erase (table : InodeTable) (ino : Ino) :
    table.Calm (table.erase ino) := by
  intro other entry found
  rw [get_erase] at found
  split at found
  · cases found
  · exact ⟨entry, found, .refl entry⟩

theorem calm_foldl {α : Type} {change : InodeTable → α → InodeTable}
    (calm : ∀ table item, Calm table (change table item)) (items : List α)
    (table : InodeTable) : table.Calm (items.foldl change table) := by
  induction items generalizing table with
  | nil => exact .refl table
  | cons item items ih => exact (calm table item).trans (ih _)

/-! ## The operations on the tree -/

theorem calm_touchParent (table : InodeTable) (parent : Ino) (now : Time) :
    table.Calm (table.touchParent parent now) := by
  apply calm_modify
  intro entry _
  exact InodeEntry.calm_of_le rfl rfl rfl (Nat.le_refl _)

theorem calm_unlinkOne (table : InodeTable) (parent : Ino) (name : Name)
    (now : Time) : table.Calm (table.unlinkOne parent name now).2 := by
  unfold unlinkOne
  split
  · exact .refl table
  rename_i parentEntry found
  split
  · exact .refl table
  rename_i child indexed
  have unnamed : table.Calm ((table.modify parent
      (·.removeChildByName name)).removePath
        (childPath parentEntry.fullPath name)) := by
    apply Calm.trans _ (calm_removePath _ _)
    apply calm_modify
    intro entry _
    exact entry.calm_removeChildByName name
  dsimp only
  split <;> rename_i foundChild
  · exact unnamed
  · exact unnamed.trans (calm_put foundChild
      (InodeEntry.calm_of_le rfl rfl rfl (Nat.sub_le _ _)))

theorem calm_removeOrphan (table : InodeTable) (ino : Ino) :
    table.Calm (table.removeOrphan ino) := by
  unfold removeOrphan
  split
  · split
    · split
      · exact (calm_erase table ino).trans (calm_removePath _ _)
      · exact calm_erase table ino
    · exact .refl table
  · exact .refl table

theorem calm_dropEntry (table : InodeTable) (ino : Ino) :
    table.Calm (table.dropEntry ino) := by
  unfold dropEntry
  split
  · exact (calm_erase table ino).trans (calm_removePath _ _)
  · exact .refl table

theorem calm_detachFromParent (table : InodeTable) (parent child : Ino)
    (kind : InodeKind) : table.Calm (table.detachFromParent parent child kind) := by
  apply calm_modify
  intro entry _
  apply (entry.calm_removeChildByIno child).trans
  apply InodeEntry.calm_of_le
  · rfl
  · rfl
  · rfl
  · dsimp only
    split
    · exact Nat.sub_le _ _
    · exact Nat.le_refl _

theorem calm_remove (table : InodeTable) (ino : Ino) :
    table.Calm (table.remove ino) := by
  unfold remove
  split
  · exact .refl table
  · apply Calm.trans (calm_dropEntry table ino)
    apply Calm.trans (calm_detachFromParent _ _ _ _)
    exact calm_foldl calm_dropEntry _ _

theorem calm_removeRemoteFile (table : InodeTable) (ino : Ino) (now : Time) :
    table.Calm (Poll.removeRemoteFile table ino now).2.1 := by
  unfold Poll.removeRemoteFile
  split
  · exact .refl table
  split
  · exact .refl table
  dsimp only
  split
  · exact calm_unlinkOne _ _ _ _
  · exact calm_remove table ino

theorem calm_evictIfSafe (table : InodeTable) (ino : Ino) :
    table.Calm (table.evictIfSafe ino).2 := by
  unfold evictIfSafe
  split
  · exact .refl table
  split
  · apply Calm.trans (calm_erase table ino)
    apply Calm.trans (calm_removePath _ _)
    apply calm_modify
    intro entry _
    apply (entry.calm_removeChildByIno ino).trans
    exact InodeEntry.calm_of_le rfl rfl rfl (Nat.le_refl _)
  · exact .refl table

theorem calm_evictBatchIfSafe (table : InodeTable) (inos : List Ino) :
    table.Calm (table.evictBatchIfSafe inos).2 := by
  intro ino new found
  rw [get_evictBatchIfSafe] at found
  split at found
  · cases found
  · obtain ⟨old, foundOld, rfl⟩ := Option.map_eq_some_iff.mp found
    exact ⟨old, foundOld, InodeEntry.calm_of_le rfl rfl rfl (Nat.le_refl _)⟩

/-- An insertion brings a clean inode in. -/
theorem undirtied_insert {parent : Ino} {parentEntry : InodeEntry}
    (foundParent : table.get parent = some parentEntry)
    (directory : parentEntry.kind = .directory) (name : Name) (fullPath : Path)
    (kind : InodeKind) (size : Nat) (mtime : Time) (xetHash : Option Hash)
    (mode uid gid : Nat) (now : Time) :
    table.Undirtied (table.insert parent name fullPath kind size mtime xetHash
      mode uid gid now).2 := by
  unfold insert
  split
  · apply Calm.undirtied
    apply calm_modify
    intro entry _
    exact InodeEntry.calm_of_le rfl rfl rfl (Nat.le_refl _)
  dsimp only
  generalize leaf : InodeEntry.new table.nextInode parent name fullPath kind
    size mtime xetHash mode uid gid now table.touchCounter = new
  have clean : new.dirtyGeneration = 0 := leaf ▸ rfl
  have key : new.inode = table.nextInode := leaf ▸ rfl
  have isKind : new.kind = kind := leaf ▸ rfl
  generalize inserted : ({ table with
    inodes := table.inodes.insert table.nextInode new
    pathToInode :=
      Function.update table.pathToInode fullPath (some table.nextInode)
    nextInode := table.nextInode + 1
    touchCounter := table.touchCounter + 1 } : InodeTable) = middle
  have looked : ∀ other, middle.get other =
      if other = table.nextInode then some new else table.get other :=
    fun other => inserted ▸ get_put table table.nextInode other new
  apply undirtied_modify
  · intro ino entry found
    rw [looked] at found
    split at found <;> rename_i same
    · obtain rfl := Option.some.inj found
      exact Or.inr ⟨clean, key.trans same.symm⟩
    · exact Or.inl ⟨entry, found, .refl entry⟩
  · intro entry found
    refine ⟨rfl, rfl, rfl, fun file linked => ?_⟩
    dsimp only at linked
    split at linked <;> rename_i isDirectory
    · rw [looked] at found
      split at found
      · obtain rfl := Option.some.inj found
        rw [isKind, isDirectory] at file
        cases file
      · rw [foundParent] at found
        obtain rfl := Option.some.inj found
        rw [directory] at file
        cases file
    · exact linked

/-! ## Renames -/

theorem calm_moveChild (table : InodeTable) {newParent : Ino}
    (directory : ∀ entry, table.get newParent = some entry →
      entry.kind = .directory) (ino oldParent : Ino) (oldName newName : Name) :
    table.Calm (table.moveChild ino oldParent oldName newParent newName) := by
  have detached : table.Calm
      (table.modify oldParent (·.removeChildByName oldName)) :=
    (Calm.refl table).modify fun entry _ => entry.calm_removeChildByName oldName
  have attached : table.Calm ((table.modify oldParent
      (·.removeChildByName oldName)).modify newParent
        (·.addChild ino newName)) :=
    detached.modify fun _ _ =>
      InodeEntry.calm_of_le rfl rfl rfl (Nat.le_refl _)
  -- the last change only renames the entry
  refine Calm.modify ?_ fun _ _ =>
    InodeEntry.calm_of_le rfl rfl rfl (Nat.le_refl _)
  split
  · have dropped := @Calm.modify _ _ attached oldParent
      (fun entry => { entry with nlink := entry.nlink - 1 })
      fun _ _ => InodeEntry.calm_of_le rfl rfl rfl (Nat.sub_le _ _)
    refine dropped.modify fun entry found => ⟨rfl, rfl, rfl, fun file => ?_⟩
    rw [dropped.directory directory found] at file
    cases file
  · exact attached

theorem calm_setPath (table : InodeTable) (move : Ino × Path) :
    table.Calm (table.setPath move) := by
  unfold setPath
  split
  · rename_i entry found
    have calm : table.Calm
        (table.put move.1 { entry with fullPath := move.2 }) :=
      calm_put found (InodeEntry.calm_of_le rfl rfl rfl (Nat.le_refl _))
    exact calm.trans (calm_of_get fun _ => rfl)
  · exact .refl table

theorem calm_updateSubtreePathsFrom (depth : Nat) (table : InodeTable)
    (ino : Ino) (newFullPath : Path) :
    table.Calm (table.updateSubtreePathsFrom depth ino newFullPath) := by
  induction depth generalizing table ino newFullPath with
  | zero => exact .refl table
  | succ depth ih =>
      unfold updateSubtreePathsFrom
      split
      · exact .refl table
      · apply Calm.trans (calm_setPath table _)
        exact calm_foldl (fun current (child : DirChild) => ih current child.ino _) _ _

theorem calm_relocate (table : InodeTable) {newParent : Ino}
    (directory : ∀ entry, table.get newParent = some entry →
      entry.kind = .directory) (ino oldParent : Ino) (oldName : Name)
    (oldPath : Path) (newName : Name) (newFullPath : Path) :
    table.Calm (table.relocate ino oldParent oldName oldPath newParent newName
      newFullPath) := by
  apply Calm.trans (calm_removePath table oldPath)
  apply Calm.trans (calm_moveChild (table.removePath oldPath) directory ino
    oldParent oldName newName)
  exact calm_updateSubtreePathsFrom _ _ _ _

theorem calm_pushPendingDelete (table : InodeTable) (ino : Ino) (path : Path) :
    table.Calm (table.modify ino (·.pushPendingDelete path)) := by
  apply calm_modify
  intro entry _
  exact InodeEntry.calm_of_le rfl rfl rfl (Nat.le_refl _)

theorem calm_recordDescendant (table : InodeTable) (child : Ino) :
    table.Calm (table.recordDescendant child) := by
  unfold recordDescendant
  split
  · split
    · exact calm_pushPendingDelete _ _ _
    · exact .refl table
  · exact .refl table

theorem calm_record (table : InodeTable) (info : RenameInfo) :
    table.Calm ((table.recordOldPath info).recordDescendants info) := by
  have own : table.Calm (table.recordOldPath info) := by
    unfold recordOldPath
    split
    · exact calm_pushPendingDelete _ _ _
    · exact .refl table
  apply own.trans
  unfold recordDescendants
  split
  · exact calm_foldl calm_recordDescendant _ _
  · exact .refl _

theorem calm_moveRenamed (table : InodeTable) (info : RenameInfo)
    {request : RenameRequest}
    (directory : ∀ entry, table.get request.newparent = some entry →
      entry.kind = .directory) (now : Time) :
    table.Calm (table.moveRenamed info request now) := by
  have recorded := calm_record table info
  have moved := recorded.trans (calm_relocate _
    (fun _ found => recorded.directory directory found) info.ino request.parent
    request.name info.oldPath request.newname info.newFullPath)
  have touched := moved.trans (calm_touchParent _ request.parent now)
  unfold moveRenamed
  refine Calm.trans ?_ (calm_modify _ _ fun entry _ =>
    InodeEntry.calm_of_le rfl rfl rfl (Nat.le_refl _))
  split
  · exact touched
  · exact touched.trans (calm_touchParent _ _ _)

theorem calm_replaceTarget (table : InodeTable) (existing : InodeEntry)
    (request : RenameRequest) (now : Time) :
    table.Calm (table.replaceTarget existing request now).2 := by
  unfold replaceTarget
  split
  · exact calm_remove _ _
  dsimp only
  have unlinked := calm_unlinkOne table request.newparent request.newname now
  split
  · exact unlinked.trans (calm_removeOrphan _ _)
  · exact unlinked

theorem calm_renameApplyLocal (table : InodeTable) {info : RenameInfo}
    {request : RenameRequest} {now : Time} {dropped : Option Ino}
    {after : InodeTable}
    (directory : ∀ entry, table.get request.newparent = some entry →
      entry.kind = .directory)
    (ok : table.renameApplyLocal info request now = .ok (dropped, after)) :
    table.Calm after := by
  unfold renameApplyLocal at ok
  split at ok
  · cases ok
  split at ok
  · obtain ⟨_, rfl⟩ := Prod.mk.inj (Except.ok.inj ok)
    exact calm_moveRenamed table info directory now
  split at ok
  · obtain ⟨_, rfl⟩ := Prod.mk.inj (Except.ok.inj ok)
    exact .refl table
  rename_i existing _ _
  split at ok
  · cases ok
  · obtain ⟨_, rfl⟩ := Prod.mk.inj (Except.ok.inj ok)
    have replaced := calm_replaceTarget table existing request now
    exact replaced.trans (calm_moveRenamed _ info
      (fun _ found => replaced.directory directory found) now)

/-! ## The operations of the file system -/

theorem undirtied_applyOp {before after : InodeTable} {op : TableOp}
    (calm : op.IsCalm) (applied : before.applyOp op = some after) :
    before.Undirtied after := by
  cases op with
  | insert parent name fullPath kind size mtime xetHash mode uid gid now =>
      simp only [applyOp] at applied
      split at applied <;> rename_i guard
      · obtain rfl := Option.some.inj applied
        obtain ⟨isDirectory, _⟩ := Bool.and_eq_true_iff.mp guard
        obtain ⟨entry, found, directory⟩ := isDirectory_iff.mp isDirectory
        exact undirtied_insert found directory name fullPath kind size mtime
          xetHash mode uid gid now
      · cases applied
  | update ino field =>
      obtain rfl := Option.some.inj applied
      exact (calm_modify _ _ fun entry _ => calm entry).undirtied
  | unlinkOne parent name now =>
      obtain rfl := Option.some.inj applied
      exact (calm_unlinkOne _ _ _ _).undirtied
  | removeOrphan ino =>
      obtain rfl := Option.some.inj applied
      exact (calm_removeOrphan _ _).undirtied
  | remove ino =>
      simp only [applyOp] at applied
      split at applied
      · cases applied
      · obtain rfl := Option.some.inj applied
        exact (calm_remove _ _).undirtied
  | removeRemoteFile ino now =>
      simp only [applyOp] at applied
      split at applied
      · obtain rfl := Option.some.inj applied
        exact (calm_removeRemoteFile _ _ _).undirtied
      · cases applied
  | evictIfSafe ino =>
      obtain rfl := Option.some.inj applied
      exact (calm_evictIfSafe _ _).undirtied
  | evictBatchIfSafe inos =>
      obtain rfl := Option.some.inj applied
      exact (calm_evictBatchIfSafe _ _).undirtied
  | renameApplyLocal info request now =>
      simp only [applyOp] at applied
      split at applied <;> rename_i guard
      · obtain ⟨isDirectory, _⟩ := Bool.and_eq_true_iff.mp guard
        have directory : ∀ entry, before.get request.newparent = some entry →
            entry.kind = .directory := by
          intro entry found
          simpa [found] using isDirectory
        split at applied <;> rename_i ok
        · obtain rfl := Option.some.inj applied
          exact (calm_renameApplyLocal before directory ok).undirtied
        · obtain rfl := Option.some.inj applied
          exact (Calm.refl before).undirtied
      · cases applied

end

end InodeTable

end HfMount.Inode
