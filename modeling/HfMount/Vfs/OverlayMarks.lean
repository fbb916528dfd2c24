import HfMount.Vfs.DirectoryRename
import HfMount.Vfs.Handles
import HfMount.Vfs.Namespace
import HfMount.Vfs.OverlayCalls

/-!
# What a table promises about the backing

A live dirty inode has its content in the backing, under its path.  A listing
makes no such promise and takes none back, and a rename moves the promises of
the source with everything below it.
-/

namespace HfMount.Inode

open SlashPath Vfs

/-- The same place, and as dirty and as open as before. -/
structure InodeEntry.SameStanding (left right : InodeEntry) : Prop
    extends left.SamePlace right where
  dirty : right.isDirty = left.isDirty
  handles : right.eviction.openHandles = left.eviction.openHandles

theorem InodeEntry.SameStanding.refl (entry : InodeEntry) :
    entry.SameStanding entry :=
  ⟨.refl entry, rfl, rfl⟩

theorem InodeEntry.SameStanding.trans {first second third : InodeEntry}
    (left : first.SameStanding second) (right : second.SameStanding third) :
    first.SameStanding third :=
  ⟨left.toSamePlace.trans right.toSamePlace, right.dirty.trans left.dirty,
    right.handles.trans left.handles⟩

namespace InodeTable

variable {table after : InodeTable} {ino : Ino} {kind : InodeKind}
  {path : Path}

/-- The inode is live and dirty, of this kind and at this path. -/
def Marks (table : InodeTable) (ino : Ino) (kind : InodeKind) (path : Path) :
    Prop :=
  ∃ entry, table.get ino = some entry ∧ entry.isLive = true ∧
    entry.isDirty = true ∧ entry.kind = kind ∧ entry.fullPath = path

/-- Every inode is in its place, or is new and clean. -/
structure Quiet (before after : InodeTable) : Prop where
  order : after.InOrder
  nextInode : before.nextInode ≤ after.nextInode
  entry : ∀ {ino : Ino} {other : InodeEntry}, after.get ino = some other →
    (∃ entry, before.get ino = some entry ∧ entry.SameStanding other) ∨
      (before.nextInode ≤ ino ∧ other.isDirty = false)

theorem Quiet.old (quiet : table.Quiet after) (given : ino < table.nextInode)
    {other : InodeEntry} (found : after.get ino = some other) :
    ∃ entry, table.get ino = some entry ∧ entry.SameStanding other := by
  rcases quiet.entry found with old | ⟨new, _⟩
  · exact old
  · exact absurd given (Nat.not_lt.mpr new)

theorem Quiet.marks (quiet : table.Quiet after)
    (marks : after.Marks ino kind path) : table.Marks ino kind path := by
  obtain ⟨other, found, live, dirty, rfl, rfl⟩ := marks
  rcases quiet.entry found with ⟨entry, foundEntry, same⟩ | ⟨_, clean⟩
  · exact ⟨entry, foundEntry, same.isLive.symm.trans live,
      same.dirty.symm.trans dirty, same.kind.symm, same.fullPath.symm⟩
  · rw [clean] at dirty
    cases dirty

theorem Quiet.refl (order : table.InOrder) : table.Quiet table :=
  ⟨order, Nat.le_refl _, fun found => Or.inl ⟨_, found, .refl _⟩⟩

theorem Quiet.trans {later : InodeTable} (first : table.Quiet after)
    (second : after.Quiet later) : table.Quiet later := by
  refine ⟨second.order, first.nextInode.trans second.nextInode, ?_⟩
  intro ino other found
  rcases second.entry found with ⟨middle, foundMiddle, right⟩ | ⟨new, clean⟩
  · rcases first.entry foundMiddle with ⟨entry, foundEntry, left⟩ | ⟨new, clean⟩
    · exact Or.inl ⟨entry, foundEntry, left.trans right⟩
    · exact Or.inr ⟨new, right.dirty.trans clean⟩
  · exact Or.inr ⟨first.nextInode.trans new, clean⟩

theorem quiet_modify (order : table.InOrder) (ino : Ino)
    {change : InodeEntry → InodeEntry}
    (same : ∀ entry : InodeEntry, entry.SameLinks (change entry))
    (dirty : ∀ entry, (change entry).isDirty = entry.isDirty)
    (handles : ∀ entry, (change entry).eviction.openHandles =
      entry.eviction.openHandles) : table.Quiet (table.modify ino change) := by
  refine ⟨order.update ino same, (nextInode_modify _ _ _).ge, ?_⟩
  intro other entry found
  rw [get_modify] at found
  split at found <;> rename_i here
  · subst here
    obtain ⟨before, foundBefore, rfl⟩ := Option.map_eq_some_iff.mp found
    exact Or.inl ⟨before, foundBefore, (same before).toSamePlace, dirty before,
      handles before⟩
  · exact Or.inl ⟨entry, found, .refl entry⟩

theorem quiet_touchParent (order : table.InOrder) (parent : Ino) (now : Time) :
    table.Quiet (table.touchParent parent now) :=
  quiet_modify order parent (fun _ => .of_fields rfl) (fun _ => rfl)
    fun _ => rfl

theorem quiet_invalidateChildren (order : table.InOrder) (ino : Ino) :
    table.Quiet (table.invalidateChildren ino) :=
  quiet_modify order ino (fun _ => .of_fields rfl) (fun _ => rfl)
    fun _ => rfl

theorem quiet_insert (order : table.InOrder) {parent : Ino} {name : Name}
    {parentEntry : InodeEntry} (found : table.get parent = some parentEntry)
    (directory : parentEntry.kind = .directory) (valid : ValidName name)
    (kind : InodeKind) (size : Nat) (mtime : Time) (xetHash : Option Hash)
    (mode uid gid : Nat) (now : Time) :
    table.Quiet (table.insert parent name (childPath parentEntry.fullPath name)
      kind size mtime xetHash mode uid gid now).2 := by
  cases mapped : table.pathToInode (childPath parentEntry.fullPath name) with
  | some existing =>
      simp only [InodeTable.insert, mapped]
      exact quiet_modify order existing (fun _ => .of_fields rfl)
        (fun _ => rfl) fun _ => rfl
  | none =>
      have free := order.wf.free_of_path found mapped
      have kept := order.insert found directory valid (fun _ => rfl) kind size
        mtime xetHash mode uid gid now
      obtain ⟨after, inserted, next, -, gotNew, gotParent, gotOther⟩ :=
        insert_of_free order.wf found directory valid free kind size mtime
          xetHash mode uid gid now
      rw [inserted] at kept ⊢
      refine ⟨kept, by simp [next], ?_⟩
      intro ino other got
      rcases get_insert_cases gotNew gotParent gotOther got with
        ⟨rfl, rfl⟩ | ⟨rfl, rfl⟩ | ⟨_, old⟩
      · exact Or.inr ⟨Nat.le_refl _, rfl⟩
      · refine Or.inl ⟨parentEntry, found, ⟨rfl, rfl, rfl, rfl, rfl, ?_⟩,
          rfl, rfl⟩
        exact fun file => absurd directory file
      · exact Or.inl ⟨other, old, .refl other⟩

/-- What is below a removed inode is not in the table. -/
theorem get_remove_below (wf : table.WellFormed) {entry : InodeEntry}
    (found : table.get ino = some entry) (notRoot : ino ≠ rootInode)
    (live : entry.isLive = true) {lower : Ino}
    (below : table.Below ino lower) : (table.remove ino).get lower = none :=
  (wf.treelike.cutsOff (wf.lists_parent found notRoot live)).gone below

/-- Taking a live inode out leaves the others in their places. -/
theorem quiet_remove (order : table.InOrder) {entry : InodeEntry}
    (found : table.get ino = some entry) (notRoot : ino ≠ rootInode)
    (live : entry.isLive = true) : table.Quiet (table.remove ino) := by
  have own : ∀ target, table.pathToInode entry.fullPath = some target →
      target = ino := by
    intro target mapped
    have self := order.wf.path.mpr ⟨entry, found, live, rfl⟩
    exact Option.some.inj (mapped.symm.trans self)
  have pruned := pruned_remove order.wf found notRoot live
  refine ⟨order.remove found notRoot own, pruned.nextInode.ge, ?_⟩
  intro lower other got
  have stays : ¬ table.Below ino lower := by
    intro below
    rw [get_remove_below order.wf found notRoot live below] at got
    cases got
  obtain ⟨before, foundBefore, handles⟩ :=
    (keepsHandles_remove table ino).entry got
  obtain ⟨kept, gotKept, place, content, -, -⟩ := pruned.kept stays foundBefore
  obtain rfl := Option.some.inj (gotKept.symm.trans got)
  refine Or.inl ⟨before, foundBefore, place, ?_, handles⟩
  simp only [InodeEntry.isDirty, content.dirtyGeneration]

/-- The entry that an insertion returns, when the name was free or had the
same kind. -/
theorem get_insert_self (wf : table.WellFormed) {parent : Ino} {name : Name}
    {parentEntry : InodeEntry} (found : table.get parent = some parentEntry)
    (directory : parentEntry.kind = .directory) (valid : ValidName name)
    (kind : InodeKind)
    (same : ∀ entry, table.lookupChild parent name = some entry →
      entry.kind = kind)
    (size : Nat) (mtime : Time) (xetHash : Option Hash) (mode uid gid : Nat)
    (now : Time) {other : InodeEntry}
    (got : (table.insert parent name (childPath parentEntry.fullPath name) kind
      size mtime xetHash mode uid gid now).2.get (table.insert parent name
        (childPath parentEntry.fullPath name) kind size mtime xetHash mode uid
        gid now).1 = some other) :
    other.kind = kind ∧ other.fullPath = childPath parentEntry.fullPath name := by
  cases mapped : table.pathToInode (childPath parentEntry.fullPath name) with
  | none =>
      have free := wf.free_of_path found mapped
      obtain ⟨after, inserted, -, -, gotNew, -, -⟩ := insert_of_free wf found
        directory valid free kind size mtime xetHash mode uid gid now
      rw [inserted] at got
      obtain rfl := Option.some.inj (gotNew.symm.trans got)
      exact ⟨rfl, rfl⟩
  | some existing =>
      obtain ⟨entry, looked⟩ : ∃ entry,
          table.lookupChild parent name = some entry := by
        cases looked : table.lookupChild parent name with
        | some entry => exact ⟨entry, rfl⟩
        | none =>
            have unnamed := (wf.lookupChild_none found).mp looked
            rw [wf.path_of_free found directory valid unnamed] at mapped
            cases mapped
      obtain ⟨above, foundAbove, -, isChild⟩ := wf.lookupChild.mp looked
      obtain rfl := Option.some.inj (foundAbove.symm.trans found)
      have own := wf.path.mpr ⟨entry, isChild.found, isChild.live,
        isChild.fullPath⟩
      obtain rfl := Option.some.inj (own.symm.trans mapped)
      have foundEntry : table.get entry.inode = some entry := isChild.found
      simp only [InodeTable.insert, mapped, get_modify, if_true, foundEntry,
        Option.map_some, Option.some.injEq] at got
      subst got
      exact ⟨same entry looked, isChild.fullPath⟩

end InodeTable

end HfMount.Inode
