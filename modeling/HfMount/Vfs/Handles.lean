import HfMount.Inode.LastRelease
import HfMount.Vfs.Leaves

/-!
# Open handles across table operations

The operations that move, unlink or remove inodes leave the number of open
handles of every inode that stays as it was.
-/

namespace HfMount.Inode

open SlashPath Poll

namespace InodeTable

/-- No inode is new, and each has as many open handles as before. -/
structure KeepsHandles (before after : InodeTable) : Prop where
  entry : ∀ {ino : Ino} {other : InodeEntry}, after.get ino = some other →
    ∃ entry : InodeEntry, before.get ino = some entry ∧
      other.eviction.openHandles = entry.eviction.openHandles

theorem KeepsHandles.refl (table : InodeTable) : table.KeepsHandles table :=
  ⟨fun found => ⟨_, found, rfl⟩⟩

theorem KeepsHandles.trans {first second third : InodeTable}
    (left : first.KeepsHandles second) (right : second.KeepsHandles third) :
    first.KeepsHandles third := by
  constructor
  intro ino last found
  obtain ⟨middle, foundMiddle, sameRight⟩ := right.entry found
  obtain ⟨entry, foundEntry, sameLeft⟩ := left.entry foundMiddle
  exact ⟨entry, foundEntry, sameRight.trans sameLeft⟩

/-! ## The parts of the operations -/

theorem keepsHandles_put {table : InodeTable} {ino : Ino}
    {entry other : InodeEntry} (found : table.get ino = some entry)
    (same : other.eviction.openHandles = entry.eviction.openHandles) :
    table.KeepsHandles (table.put ino other) := by
  constructor
  intro target targetEntry got
  rw [get_put] at got
  split at got <;> rename_i here
  · subst here
    obtain rfl := Option.some.inj got
    exact ⟨entry, found, same⟩
  · exact ⟨targetEntry, got, rfl⟩

theorem keepsHandles_modify (table : InodeTable) (ino : Ino)
    {change : InodeEntry → InodeEntry}
    (same : ∀ entry : InodeEntry,
      (change entry).eviction.openHandles = entry.eviction.openHandles) :
    table.KeepsHandles (table.modify ino change) := by
  cases found : table.get ino with
  | none =>
      rw [modify_of_none found]
      exact .refl table
  | some entry =>
      rw [modify_of_some found]
      exact keepsHandles_put found (same entry)

theorem keepsHandles_erase (table : InodeTable) (ino : Ino) :
    table.KeepsHandles (table.erase ino) := by
  constructor
  intro other entry got
  rw [get_erase] at got
  split at got
  · cases got
  · exact ⟨entry, got, rfl⟩

theorem keepsHandles_forget (table : InodeTable) (ino : Ino) (path : Path) :
    table.KeepsHandles ((table.erase ino).removePath path) :=
  ⟨(keepsHandles_erase table ino).entry⟩

theorem keepsHandles_foldl {α : Type} {change : InodeTable → α → InodeTable}
    (each : ∀ (table : InodeTable) (item : α),
      table.KeepsHandles (change table item)) (items : List α)
    (table : InodeTable) : table.KeepsHandles (items.foldl change table) := by
  induction items generalizing table with
  | nil => exact .refl table
  | cons item items ih => exact (each table item).trans (ih _)

theorem eviction_removeChildByName (entry : InodeEntry) (name : Name) :
    (entry.removeChildByName name).eviction = entry.eviction := by
  unfold InodeEntry.removeChildByName
  split <;> rfl

theorem eviction_removeChildByIno (entry : InodeEntry) (ino : Ino) :
    (entry.removeChildByIno ino).eviction = entry.eviction := by
  unfold InodeEntry.removeChildByIno
  split <;> rfl

theorem keepsHandles_removeChildByName (table : InodeTable) (ino : Ino)
    (name : Name) :
    table.KeepsHandles (table.modify ino (·.removeChildByName name)) := by
  apply keepsHandles_modify
  intro entry
  rw [eviction_removeChildByName]

/-! ## The operations -/

theorem keepsHandles_unlinkOne (table : InodeTable) (parent : Ino) (name : Name)
    (now : Time) :
    table.KeepsHandles (table.unlinkOne parent name now).2 := by
  unfold unlinkOne
  split
  · exact .refl table
  split
  · exact .refl table
  have unnamed : ∀ path, table.KeepsHandles
      ((table.modify parent (·.removeChildByName name)).removePath path) :=
    fun _ => ⟨(keepsHandles_removeChildByName table parent name).entry⟩
  dsimp only
  split <;> rename_i found
  · exact unnamed _
  · exact (unnamed _).trans (keepsHandles_put found rfl)

theorem keepsHandles_removeOrphan (table : InodeTable) (ino : Ino) :
    table.KeepsHandles (table.removeOrphan ino) := by
  unfold removeOrphan
  split
  · split
    · split
      · exact keepsHandles_forget table ino _
      · exact keepsHandles_erase table ino
    · exact .refl table
  · exact .refl table

theorem keepsHandles_dropEntry (table : InodeTable) (ino : Ino) :
    table.KeepsHandles (table.dropEntry ino) := by
  unfold dropEntry
  split
  · exact keepsHandles_forget table ino _
  · exact .refl table

theorem keepsHandles_remove (table : InodeTable) (ino : Ino) :
    table.KeepsHandles (table.remove ino) := by
  unfold remove
  split
  · exact .refl table
  · refine ((keepsHandles_dropEntry table ino).trans ?_).trans
      (keepsHandles_foldl keepsHandles_dropEntry _ _)
    apply keepsHandles_modify
    intro entry
    simp only [eviction_removeChildByIno]

theorem keepsHandles_replaceTarget (table : InodeTable) (existing : InodeEntry)
    (request : RenameRequest) (now : Time) :
    table.KeepsHandles (table.replaceTarget existing request now).2 := by
  unfold InodeTable.replaceTarget
  split
  · exact keepsHandles_remove _ _
  dsimp only
  split
  · exact (keepsHandles_unlinkOne _ _ _ _).trans (keepsHandles_removeOrphan _ _)
  · exact keepsHandles_unlinkOne _ _ _ _

theorem keepsHandles_moveChild (table : InodeTable) (ino oldParent : Ino)
    (oldName : Name) (newParent : Ino) (newName : Name) :
    table.KeepsHandles
      (table.moveChild ino oldParent oldName newParent newName) := by
  have attached : table.KeepsHandles
      ((table.modify oldParent (·.removeChildByName oldName)).modify newParent
        (·.addChild ino newName)) := by
    apply (keepsHandles_removeChildByName table oldParent oldName).trans
    apply keepsHandles_modify
    simp [InodeEntry.addChild]
  have counted : ∀ (current : InodeTable) (parent : Ino) (count : Nat → Nat),
      current.KeepsHandles (current.modify parent fun entry =>
        { entry with nlink := count entry.nlink }) :=
    fun current parent _ => keepsHandles_modify current parent fun _ => rfl
  have renamed : ∀ current : InodeTable, current.KeepsHandles
      (current.modify ino fun entry =>
        { entry with
          parent := newParent
          name := newName }) :=
    fun current => keepsHandles_modify current ino fun _ => rfl
  unfold moveChild
  dsimp only
  refine KeepsHandles.trans ?_ (renamed _)
  split
  · exact (attached.trans (counted _ oldParent (· - 1))).trans
      (counted _ newParent (· + 1))
  · exact attached

theorem keepsHandles_updateSubtreePaths (table : InodeTable) (ino : Ino)
    (path : Path) : table.KeepsHandles (table.updateSubtreePaths ino path) := by
  unfold updateSubtreePaths
  rw [updateSubtreePathsFrom_eq]
  apply keepsHandles_foldl
  intro current move
  unfold setPath
  split <;> rename_i found
  · rename_i entry
    have moved : (current.removePath entry.fullPath).KeepsHandles
        ((current.removePath entry.fullPath).put move.1
          { entry with fullPath := move.2 }) := keepsHandles_put found rfl
    exact ⟨moved.entry⟩
  · exact .refl current

theorem keepsHandles_moveRenamed (table : InodeTable) (info : RenameInfo)
    (request : RenameRequest) (now : Time) :
    table.KeepsHandles (table.moveRenamed info request now) := by
  have recorded : table.KeepsHandles
      ((table.recordOldPath info).recordDescendants info) := by
    constructor
    intro ino other found
    obtain ⟨entry, foundEntry, pending, rfl⟩ :=
      (table.owing_record info).backward found
    exact ⟨entry, foundEntry, rfl⟩
  have moved : ∀ current : InodeTable, current.KeepsHandles
      (current.relocate info.ino request.parent request.name info.oldPath
        request.newparent request.newname info.newFullPath) := by
    intro current
    have attached := (keepsHandles_moveChild (current.removePath info.oldPath)
      info.ino request.parent request.name request.newparent
        request.newname).trans
      (keepsHandles_updateSubtreePaths _ info.ino info.newFullPath)
    exact ⟨attached.entry⟩
  have touched : ∀ (current : InodeTable) (parent : Ino),
      current.KeepsHandles (current.touchParent parent now) :=
    fun current parent => keepsHandles_modify current parent fun _ => rfl
  have stamped : ∀ current : InodeTable, current.KeepsHandles
      (current.modify info.ino fun entry => { entry with ctime := now }) :=
    fun current => keepsHandles_modify current info.ino fun _ => rfl
  rw [moveRenamed_eq]
  refine (recorded.trans (moved _)).trans ?_
  unfold touchRenamed
  refine KeepsHandles.trans ?_ (stamped _)
  split
  · exact touched _ _
  · exact (touched _ _).trans (touched _ _)

end InodeTable

end HfMount.Inode
