import HfMount.Vfs.Nodes
import HfMount.Vfs.Validated

/-!
# The local half of a rename

When the validation would still give the same source and paths, the local half
of a rename takes the replaced inode out of the tree and moves the source with
all that is below it; the table stays well formed.  What a node shows
afterwards follows from whether it has moved.
-/

namespace HfMount.Inode

open SlashPath Vfs

namespace InodeTable

/-- The validation would still pass, with the same source and destination, and
the old path has not passed to another inode. -/
structure Current (table : InodeTable) (info : RenameInfo)
    (request : RenameRequest) (src newParentEntry : InodeEntry) : Prop where
  valid : table.Validated request (table.renameInfo request src newParentEntry)
    src newParentEntry
  directory : newParentEntry.kind = .directory
  name : ValidName request.newname
  ino : info.ino = src.inode
  oldPath : ∀ other, table.pathToInode info.oldPath = some other →
    other = info.ino
  kind : info.kind = src.kind
  newFullPath : info.newFullPath =
    childPath newParentEntry.fullPath request.newname

/-! ## The replaced inode -/

theorem conflict_none {noReplace : Bool} {kind : InodeKind}
    {existing : InodeEntry}
    (allowed : destinationConflict noReplace kind existing = none)
    (directory : existing.kind = .directory) : existing.children = [] := by
  unfold destinationConflict at allowed
  split at allowed
  · cases allowed
  · rw [directory] at allowed
    cases kind with
    | file => cases allowed
    | symlink => cases allowed
    | directory =>
        dsimp only at allowed
        split at allowed <;> rename_i empty
        · exact List.isEmpty_iff.mp empty
        · cases allowed

theorem WellFormed.below_leaf {table : InodeTable} (wf : table.WellFormed)
    {ino lower : Ino} {entry : InodeEntry} (found : table.get ino = some entry)
    (leaf : entry.children = []) : table.Below ino lower ↔ lower = ino := by
  constructor
  · intro below
    rcases Relation.ReflTransGen.cases_head below with same | ⟨child, step, _⟩
    · exact same.symm
    · obtain ⟨name, _, _, listed, _⟩ := wf.lists found step
      rw [leaf] at listed
      cases listed
  · rintro rfl
    exact .refl

/-- Only the replaced inode leaves the tree. -/
theorem pruned_replaceTarget {table : InodeTable} (wf : table.WellFormed)
    {request : RenameRequest} {existing : InodeEntry} {kind : InodeKind}
    (looked : table.lookupChild request.newparent request.newname =
      some existing)
    (allowed : destinationConflict request.noReplace kind existing = none)
    (now : Time) :
    table.Pruned (table.replaceTarget existing request now).2
      (· = existing.inode) := by
  obtain ⟨parentEntry, found, listed, isChild⟩ := wf.lookupChild.mp looked
  have notRoot := (wf.directory found listed).2.1
  unfold replaceTarget
  split <;> rename_i directory
  · have only : table.Below existing.inode = (· = existing.inode) := by
      funext lower
      exact propext (wf.below_leaf isChild.found
        (conflict_none allowed directory))
    exact only ▸ pruned_remove wf isChild.found notRoot isChild.live
  · have unlinked := pruned_unlinkOne wf looked directory now
    obtain ⟨_, _, _, _, _, _, result⟩ := unlinkOne_eq wf looked directory now
    have orphan : (table.unlinkOne request.newparent request.newname
        now).2.get existing.inode =
          some { existing with
            nlink := 0
            ctime := now } := by
      rw [result]
      exact get_put_self _ _ _
    dsimp only
    split
    · exact unlinked.trans
        (pruned_removeOrphan (wf.pruned unlinked) orphan directory rfl).2
    · exact unlinked

end InodeTable

/-! ## The recorded deletes -/

namespace InodeEntry

/-- Only the list of owed deletes may differ. -/
def Owing (left right : InodeEntry) : Prop :=
  ∃ pending, right = { left with pendingDeletes := pending }

theorem Owing.refl (entry : InodeEntry) : entry.Owing entry :=
  ⟨entry.pendingDeletes, rfl⟩

theorem Owing.trans {first second third : InodeEntry}
    (left : first.Owing second) (right : second.Owing third) :
    first.Owing third := by
  obtain ⟨middle, rfl⟩ := left
  obtain ⟨last, rfl⟩ := right
  exact ⟨last, rfl⟩

theorem Owing.sameNode {left right : InodeEntry} (owing : left.Owing right) :
    left.SameNode right := by
  obtain ⟨pending, rfl⟩ := owing
  exact .of_fields rfl

theorem owing_pushPendingDelete (entry : InodeEntry) (path : Path) :
    entry.Owing (entry.pushPendingDelete path) := ⟨_, rfl⟩

end InodeEntry

namespace InodeTable

theorem owing_recordOldPath (table : InodeTable) (info : RenameInfo) :
    Corresponding InodeEntry.Owing table (table.recordOldPath info) := by
  unfold recordOldPath
  split
  · exact corresponding_modify .refl table info.ino fun entry =>
      entry.owing_pushPendingDelete info.oldPath
  · exact .refl .refl table

theorem owing_recordDescendant (table : InodeTable) (child : Ino) :
    Corresponding InodeEntry.Owing table (table.recordDescendant child) := by
  unfold recordDescendant
  split
  · split
    · exact corresponding_modify .refl table child fun entry =>
        entry.owing_pushPendingDelete _
    · exact .refl .refl table
  · exact .refl .refl table

theorem owing_foldl_recordDescendant (inos : List Ino) (table : InodeTable) :
    Corresponding InodeEntry.Owing table
      (inos.foldl recordDescendant table) := by
  induction inos generalizing table with
  | nil => exact .refl .refl table
  | cons ino inos ih =>
      exact Corresponding.trans .trans (table.owing_recordDescendant ino)
        (ih (table.recordDescendant ino))

theorem owing_record (table : InodeTable) (info : RenameInfo) :
    Corresponding InodeEntry.Owing table
      ((table.recordOldPath info).recordDescendants info) := by
  refine Corresponding.trans .trans (table.owing_recordOldPath info) ?_
  unfold recordDescendants
  split
  · exact owing_foldl_recordDescendant _ _
  · exact .refl .refl _

/-! ## Moving the source -/

/-- The same children in the same order leave the same below. -/
theorem Corresponding.below {before after : InodeTable}
    (similar : before.Similar after) {upper lower : Ino} :
    after.Below upper lower ↔ before.Below upper lower := by
  have same : after.Lists = before.Lists := by
    funext parent child
    apply propext
    constructor
    · rintro ⟨other, name, found, listed⟩
      obtain ⟨entry, got, node⟩ := similar.backward found
      exact ⟨entry, name, got, node.children ▸ listed⟩
    · rintro ⟨entry, name, found, listed⟩
      obtain ⟨other, got, node⟩ := similar.forward found
      exact ⟨other, name, got, node.children.symm ▸ listed⟩
  rw [Below, same]

/-- The touches at the end of a rename. -/
def touchRenamed (table : InodeTable) (info : RenameInfo)
    (request : RenameRequest) (now : Time) : InodeTable :=
  let touched := table.touchParent request.parent now
  let both := if request.parent = request.newparent then touched
    else touched.touchParent request.newparent now
  both.modify info.ino fun entry => { entry with ctime := now }

theorem moveRenamed_eq (table : InodeTable) (info : RenameInfo)
    (request : RenameRequest) (now : Time) :
    table.moveRenamed info request now =
      (((table.recordOldPath info).recordDescendants info).relocate info.ino
        request.parent request.name info.oldPath request.newparent
        request.newname info.newFullPath).touchRenamed info request now := rfl

theorem similar_touchRenamed (table : InodeTable) (info : RenameInfo)
    (request : RenameRequest) (now : Time) :
    table.Similar (table.touchRenamed info request now) := by
  unfold touchRenamed
  have last : ∀ current : InodeTable, current.Similar
      (current.modify info.ino fun entry => { entry with ctime := now }) :=
    fun current => similar_modify current info.ino fun _ =>
      .of_fields rfl
  dsimp only
  split
  · exact (similar_touchParent _ _ _).trans (last _)
  · exact ((similar_touchParent _ _ _).trans
      (similar_touchParent _ _ _)).trans (last _)

theorem node_touchRenamed (table : InodeTable) (info : RenameInfo)
    (request : RenameRequest) (now : Time) (ino : Ino) :
    (table.touchRenamed info request now).node ino = table.node ino := by
  unfold touchRenamed
  dsimp only
  rw [node_modify_same]
  · split
    · exact node_touchParent _ _ _ _
    · rw [node_touchParent]
      exact node_touchParent _ _ _ _
  · intro entry
    exact ⟨⟨rfl, rfl, rfl, rfl, rfl, fun _ => rfl⟩, ⟨rfl, rfl, rfl, rfl, rfl⟩⟩

theorem Destination.similar {before after : InodeTable}
    (similar : before.Similar after) {ino newParent : Ino} {newName : Name}
    {newEntry : InodeEntry}
    (destination : before.Destination ino newParent newName newEntry) :
    ∃ other, after.Destination ino newParent newName other ∧
      other.fullPath = newEntry.fullPath := by
  obtain ⟨other, found, same⟩ := similar.forward destination.found
  refine ⟨other, ⟨found, same.kind.trans destination.directory,
    destination.valid, ?_, ?_⟩, same.fullPath⟩
  · rw [same.childIndex]
    exact destination.free
  · rw [similar.below]
    exact destination.outside

/-- The source, its place, and a free destination, as the last part of the
local half finds them. -/
structure Movable (table : InodeTable) (info : RenameInfo)
    (request : RenameRequest) (entry newEntry : InodeEntry) : Prop where
  found : table.get info.ino = some entry
  notRoot : info.ino ≠ rootInode
  live : entry.isLive = true
  parent : entry.parent = request.parent
  name : entry.name = request.name
  oldPath : ∀ other, table.pathToInode info.oldPath = some other →
    other = info.ino
  newFullPath : info.newFullPath =
    childPath newEntry.fullPath request.newname
  destination : table.Destination info.ino request.newparent request.newname
    newEntry

/-- Moving the source keeps the table well formed. -/
theorem Movable.moveRenamed {table : InodeTable} {info : RenameInfo}
    {request : RenameRequest} {entry newEntry : InodeEntry}
    (movable : table.Movable info request entry newEntry)
    (wf : table.WellFormed) (now : Time) :
    (table.moveRenamed info request now).WellFormed ∧
      ∃ recorded moved : InodeTable,
        recorded = (table.recordOldPath info).recordDescendants info ∧
        recorded.WellFormed ∧
        moved = recorded.relocate info.ino request.parent request.name
          info.oldPath request.newparent request.newname info.newFullPath ∧
        recorded.Moved moved info.ino request.newparent request.newname
          entry.fullPath info.newFullPath ∧
        table.moveRenamed info request now =
          moved.touchRenamed info request now := by
  obtain ⟨recorded, recordedDef⟩ : ∃ recorded, recorded =
      (table.recordOldPath info).recordDescendants info := ⟨_, rfl⟩
  have owing : Corresponding InodeEntry.Owing table recorded :=
    recordedDef ▸ table.owing_record info
  have similar : table.Similar recorded :=
    owing.mono fun _ _ same => same.sameNode
  have recordedWf := wf.similar similar
  obtain ⟨source, found, same⟩ := similar.forward movable.found
  obtain ⟨target, destination, targetPath⟩ := movable.destination.similar similar
  have live : source.isLive = true := same.isLive.trans movable.live
  have sameMove : recorded.relocate info.ino request.parent request.name
      info.oldPath request.newparent request.newname info.newFullPath =
        recorded.relocate info.ino source.parent source.name source.fullPath
          request.newparent request.newname
          (childPath target.fullPath request.newname) := by
    rw [same.parent, same.name, targetPath, movable.parent, movable.name,
      ← movable.newFullPath]
    cases mapped : recorded.pathToInode info.oldPath with
    | some other =>
        rw [similar.path] at mapped
        obtain rfl := movable.oldPath other mapped
        obtain ⟨again, foundAgain, _, samePath⟩ := wf.path.mp mapped
        obtain rfl := Option.some.inj (foundAgain.symm.trans movable.found)
        rw [same.fullPath, samePath]
    | none =>
        obtain ⟨reattached, got, _, samePath⟩ := reattached_moveChild recordedWf
          found movable.notRoot live destination found
        rw [same.parent, same.name, movable.parent, movable.name] at got
        rw [relocate_of_unmapped mapped got, samePath]
  have moved := moved_relocate recordedWf found movable.notRoot live destination
  have movedWf := recordedWf.moved found movable.notRoot live destination moved
  rw [← sameMove] at moved movedWf
  rw [same.fullPath, targetPath, ← movable.newFullPath] at moved
  refine ⟨?_, recorded, _, recordedDef, recordedWf, rfl, moved, ?_⟩
  · rw [moveRenamed_eq, ← recordedDef]
    exact movedWf.similar (similar_touchRenamed _ _ _ _)
  · rw [moveRenamed_eq, ← recordedDef]

/-- What is below an inode after others have left was below it before. -/
theorem Pruned.below {before after : InodeTable} {gone : Ino → Prop}
    (pruned : before.Pruned after gone) {upper lower : Ino}
    (below : after.Below upper lower) : before.Below upper lower := by
  induction below with
  | refl => exact .refl
  | tail _ step ih =>
      refine ih.tail ?_
      rename_i middle last _
      obtain ⟨other, name, found, listed⟩ := step
      obtain ⟨entry, foundBefore, whenGone⟩ := pruned.source found
      by_cases isGone : gone middle
      · rw [(whenGone isGone).2.2.2] at listed
        cases listed
      · obtain ⟨kept, foundKept, _, _, _, children⟩ :=
          pruned.kept isGone foundBefore
        obtain rfl := Option.some.inj (found.symm.trans foundKept)
        exact ⟨entry, name, foundBefore, ((children _).mp listed).1⟩

/-! ## The whole local half -/

variable {table : InodeTable} {info : RenameInfo} {request : RenameRequest}
  {src newParentEntry : InodeEntry}

theorem Current.movable_of_free
    (current : table.Current info request src newParentEntry)
    (wf : table.WellFormed)
    (free : table.lookupChild request.newparent request.newname = none) :
    table.Movable info request src newParentEntry := by
  obtain ⟨found, notRoot, live, parent, name⟩ := current.valid.source wf
  have unnamed := (wf.lookupChild_none current.valid.parent).mp free
  refine ⟨?_, ?_, live, parent, name, current.oldPath, current.newFullPath, ?_⟩
  · rw [current.ino]
    exact found
  · rw [current.ino]
    exact notRoot
  · refine ⟨current.valid.parent, current.directory, current.name, unnamed, ?_⟩
    rw [current.ino]
    exact current.valid.outside wf current.directory

theorem Current.movable_of_replaced
    (current : table.Current info request src newParentEntry)
    (wf : table.WellFormed) {existing : InodeEntry}
    (looked : table.lookupChild request.newparent request.newname =
      some existing)
    (different : existing.inode ≠ info.ino) (now : Time) :
    ∃ entry newEntry,
      (table.replaceTarget existing request now).2.Movable info request entry
        newEntry ∧
      src.SamePlace entry ∧ src.SameContent entry ∧
      newEntry.fullPath = newParentEntry.fullPath := by
  obtain ⟨found, notRoot, live, parent, name⟩ := current.valid.source wf
  obtain ⟨parentEntry, foundParent, listed, isChild⟩ :=
    wf.lookupChild.mp looked
  obtain rfl := Option.some.inj (foundParent.symm.trans current.valid.parent)
  have pruned := pruned_replaceTarget wf looked
    (current.valid.noConflict existing looked) now
  have sourceStays : src.inode ≠ existing.inode := by
    rw [← current.ino]
    exact different.symm
  have parentStays : request.newparent ≠ existing.inode := by
    intro same
    have shorter := length_lt_childPath (wf.directory foundParent listed).2.2
      parentEntry.fullPath
    rw [← isChild.fullPath] at shorter
    rw [same] at foundParent
    obtain rfl := Option.some.inj (foundParent.symm.trans isChild.found)
    exact Nat.lt_irrefl _ shorter
  obtain ⟨entry, gotEntry, place, content, _, _⟩ :=
    pruned.kept sourceStays found
  obtain ⟨newEntry, gotNew, newPlace, _, newIndexed, newChildren⟩ :=
    pruned.kept parentStays foundParent
  refine ⟨entry, newEntry, ⟨?_, ?_, ?_, ?_, ?_, ?_, ?_, ?_⟩, place, content,
    newPlace.fullPath⟩
  · rw [current.ino]
    exact gotEntry
  · rw [current.ino]
    exact notRoot
  · exact place.isLive.trans live
  · exact place.parent.trans parent
  · exact place.name.trans name
  · intro other mapped
    exact current.oldPath other (pruned.path.mp mapped).1
  · rw [newPlace.fullPath]
    exact current.newFullPath
  · refine ⟨gotNew, newPlace.kind.trans current.directory, current.name, ?_, ?_⟩
    · cases named : newEntry.childIndex request.newname with
      | none => rfl
      | some other =>
          have still := (newIndexed.index _ _).mp named
          obtain ⟨before, notGone⟩ := (newChildren _).mp still
          exact absurd ((wf.indexed foundParent).ino_eq before listed) notGone
    · rw [current.ino]
      exact fun below => current.valid.outside wf current.directory
        (pruned.below below)

/-- The ways in which the local half can succeed. -/
inductive Applied (table : InodeTable) (info : RenameInfo)
    (request : RenameRequest) (now : Time) : Option Ino → InodeTable → Prop
  | sameInode {existing : InodeEntry} :
      table.lookupChild request.newparent request.newname = some existing →
      existing.inode = info.ino → Applied table info request now none table
  | free {entry newEntry : InodeEntry} :
      table.lookupChild request.newparent request.newname = none →
      table.Movable info request entry newEntry →
      Applied table info request now none (table.moveRenamed info request now)
  | replaced {existing entry newEntry : InodeEntry} :
      table.lookupChild request.newparent request.newname = some existing →
      existing.inode ≠ info.ino →
      table.Pruned (table.replaceTarget existing request now).2
        (· = existing.inode) →
      (table.replaceTarget existing request now).2.Movable info request entry
        newEntry →
      Applied table info request now
        (table.replaceTarget existing request now).1
        ((table.replaceTarget existing request now).2.moveRenamed info request
          now)

theorem Current.applied
    (current : table.Current info request src newParentEntry)
    (wf : table.WellFormed) {now : Time} {dropped : Option Ino}
    {after : InodeTable}
    (ok : table.renameApplyLocal info request now = .ok (dropped, after)) :
    Applied table info request now dropped after := by
  unfold renameApplyLocal at ok
  split at ok
  · cases ok
  split at ok <;> rename_i looked
  · obtain ⟨rfl, rfl⟩ := Prod.mk.inj (Except.ok.inj ok)
    exact .free looked (current.movable_of_free wf looked)
  rename_i existing
  split at ok <;> rename_i same
  · obtain ⟨rfl, rfl⟩ := Prod.mk.inj (Except.ok.inj ok)
    exact .sameInode looked same
  split at ok
  · cases ok
  obtain ⟨rfl, rfl⟩ := Prod.mk.inj (Except.ok.inj ok)
  obtain ⟨entry, newEntry, movable, _⟩ :=
    current.movable_of_replaced wf looked same now
  exact .replaced looked same
    (pruned_replaceTarget wf looked (current.valid.noConflict existing looked)
      now) movable

theorem Applied.wellFormed {now : Time} {dropped : Option Ino}
    {after : InodeTable} (applied : Applied table info request now dropped after)
    (wf : table.WellFormed) : after.WellFormed := by
  cases applied with
  | sameInode => exact wf
  | free _ movable => exact (movable.moveRenamed wf now).1
  | replaced _ _ pruned movable =>
      exact (movable.moveRenamed (wf.pruned pruned) now).1

end InodeTable

end HfMount.Inode
