import HfMount.Vfs.NamedFiles
import HfMount.Vfs.OverlayMarks

/-!
# Renames and what the backing has to have

The local half of a rename moves what the table promises at or below the old
path, and leaves the rest where it is.
-/

namespace HfMount.Inode

open SlashPath Vfs

namespace InodeTable

variable {table after : InodeTable} {ino : Ino} {kind : InodeKind}
  {path : Path} {info : RenameInfo} {request : RenameRequest} {now : Time}

theorem marks_iff_node : table.Marks ino kind path ↔ ∃ node,
    table.node ino = some node ∧ 0 < node.generation ∧ node.kind = kind ∧
      node.path = path := by
  constructor
  · rintro ⟨entry, found, live, dirty, rfl, rfl⟩
    exact ⟨_, node_of_get found live, InodeEntry.isDirty_iff.mp dirty, rfl, rfl⟩
  · rintro ⟨node, shown, dirty, rfl, rfl⟩
    obtain ⟨entry, found, live, rfl⟩ := node_eq_some.mp shown
    exact ⟨entry, found, live, InodeEntry.isDirty_iff.mpr dirty, rfl, rfl⟩

theorem Pruned.marks {gone : Ino → Prop} (pruned : table.Pruned after gone)
    (marks : after.Marks ino kind path) :
    table.Marks ino kind path ∧ ¬ gone ino := by
  obtain ⟨node, shown, rest⟩ := marks_iff_node.mp marks
  obtain ⟨whenGone, otherwise⟩ := pruned.node ino
  have stays : ¬ gone ino := by
    intro isGone
    rw [whenGone isGone] at shown
    cases shown
  rw [otherwise stays] at shown
  exact ⟨marks_iff_node.mpr ⟨node, shown, rest⟩, stays⟩

/-- What is within the path of the source moves, and the rest stays. -/
theorem Movable.marks {source newEntry : InodeEntry}
    (movable : table.Movable info request source newEntry)
    (wf : table.WellFormed) (oldPath : source.fullPath = info.oldPath)
    (marks : (table.moveRenamed info request now).Marks ino kind path) :
    ∃ before, table.Marks ino kind before ∧
      path = rebase info.oldPath info.newFullPath before := by
  obtain ⟨_, recorded, moved, recordedDef, _, _, isMoved, result⟩ :=
    movable.moveRenamed wf now
  have owing : Corresponding InodeEntry.Owing table recorded :=
    recordedDef ▸ table.owing_record info
  have similar : table.Similar recorded :=
    owing.mono fun _ _ same => same.sameNode
  obtain ⟨node, shown, dirty, rfl, rfl⟩ := marks_iff_node.mp marks
  rw [result, node_touchRenamed] at shown
  obtain ⟨target, foundTarget, live, rfl⟩ := node_eq_some.mp shown
  obtain ⟨noted, foundNoted⟩ := isMoved.source foundTarget
  obtain ⟨again, foundAgain, same, whenBelow, whenApart⟩ :=
    isMoved.kept foundNoted
  obtain rfl := Option.some.inj (foundAgain.symm.trans foundTarget)
  obtain ⟨entry, found, pending, rfl⟩ := owing.backward foundNoted
  have isLive : entry.isLive = true := same.isLive.symm.trans live
  have isDirty : entry.isDirty = true :=
    InodeEntry.isDirty_iff.mpr (same.dirtyGeneration ▸ dirty)
  refine ⟨entry.fullPath, ⟨entry, found, isLive, isDirty, same.kind.symm, rfl⟩,
    ?_⟩
  have nonempty : source.fullPath ≠ [] := by
    intro root
    obtain ⟨_, _, _, valid, _, below⟩ :=
      wf.parent movable.found movable.notRoot movable.live
    exact childPath_ne_nil valid _ (below.symm.trans root)
  rw [← oldPath]
  by_cases within : Within source.fullPath entry.fullPath
  · apply whenBelow
    apply (Corresponding.below similar).mpr
    exact wf.below_of_within movable.found movable.live nonempty found isLive
      within
  · rw [rebase, if_neg within]
    apply whenApart
    intro below
    apply within
    exact wf.below_within movable.found nonempty
      ((Corresponding.below similar).mp below) found

/-- If the inode is still there it is live, has this kind and is not open. -/
structure Awaits (table : InodeTable) (ino : Ino) (kind : InodeKind) :
    Prop where
  given : ino < table.nextInode
  notRoot : ino ≠ rootInode
  entry : ∀ entry, table.get ino = some entry →
    entry.isLive = true ∧ entry.kind = kind ∧ entry.eviction.openHandles = 0

/-- Taking the inode out again. -/
theorem Awaits.remove (awaits : table.Awaits ino kind)
    (order : table.InOrder) : table.Quiet (table.remove ino) ∧
      (table.remove ino).get ino = none := by
  cases found : table.get ino with
  | none =>
      have same : table.remove ino = table := by
        unfold InodeTable.remove
        rw [found]
      rw [same]
      exact ⟨.refl order, found⟩
  | some entry =>
      have live := (awaits.entry entry found).1
      exact ⟨quiet_remove order found awaits.notRoot live,
        get_remove_below order.wf found awaits.notRoot live .refl⟩

theorem Awaits.pruned {gone : Ino → Prop} (awaits : table.Awaits ino kind)
    (pruned : table.Pruned after gone) (handles : table.KeepsHandles after)
    (absent : gone ino → after.get ino = none) : after.Awaits ino kind := by
  refine ⟨pruned.nextInode ▸ awaits.given, awaits.notRoot, ?_⟩
  intro other got
  have stays : ¬ gone ino := by
    intro isGone
    rw [absent isGone] at got
    cases got
  obtain ⟨before, found, sameHandles⟩ := handles.entry got
  obtain ⟨live, sameKind, closed⟩ := awaits.entry before found
  obtain ⟨kept, gotKept, place, -⟩ := pruned.kept stays found
  obtain rfl := Option.some.inj (gotKept.symm.trans got)
  exact ⟨place.isLive.trans live, place.kind.trans sameKind,
    sameHandles.trans closed⟩

theorem Movable.awaits {source newEntry : InodeEntry}
    (movable : table.Movable info request source newEntry)
    (wf : table.WellFormed) (awaits : table.Awaits ino kind) :
    (table.moveRenamed info request now).Awaits ino kind := by
  obtain ⟨_, recorded, moved, recordedDef, _, _, isMoved, result⟩ :=
    movable.moveRenamed wf now
  have similar : table.Similar recorded :=
    (recordedDef ▸ table.owing_record info : Corresponding InodeEntry.Owing
      table recorded).mono fun _ _ same => same.sameNode
  have touched := similar_touchRenamed moved info request now
  refine ⟨?_, awaits.notRoot, ?_⟩
  · rw [result, touched.nextInode, isMoved.nextInode, similar.nextInode]
    exact awaits.given
  · intro other got
    obtain ⟨before, found, handles⟩ :=
      (keepsHandles_moveRenamed table info request now).entry got
    obtain ⟨live, sameKind, closed⟩ := awaits.entry before found
    obtain ⟨noted, foundNoted, sameNoted⟩ := similar.forward found
    obtain ⟨target, foundTarget, same, -⟩ := isMoved.kept foundNoted
    obtain ⟨last, foundLast, sameLast⟩ := touched.forward foundTarget
    rw [result] at got
    obtain rfl := Option.some.inj (foundLast.symm.trans got)
    refine ⟨?_, ?_, handles.trans closed⟩
    · rw [sameLast.isLive, same.isLive, sameNoted.isLive, live]
    · rw [sameLast.kind, same.kind, sameNoted.kind, sameKind]

/-- If the inode is still there it is a live one below the root, at the path. -/
structure Holds (table : InodeTable) (ino : Ino) (path : Path) : Prop where
  given : ino < table.nextInode
  notRoot : ino ≠ rootInode
  nonempty : path ≠ []
  entry : ∀ entry, table.get ino = some entry →
    entry.isLive = true ∧ entry.fullPath = path

section

variable {src newParentEntry : InodeEntry} {dropped : Option Ino}

theorem Applied.marks (applied : Applied table info request now dropped after)
    (current : table.Current info request src newParentEntry)
    (wf : table.WellFormed) (holds : table.Holds info.ino info.oldPath)
    (marks : after.Marks ino kind path) :
    ∃ before, table.Marks ino kind before ∧
      path = rebase info.oldPath info.newFullPath before := by
  cases applied with
  | @sameInode existing looked same =>
      obtain ⟨parentEntry, found, -, isChild⟩ := wf.lookupChild.mp looked
      obtain rfl := Option.some.inj (current.valid.parent.symm.trans found)
      have foundSource : table.get info.ino = some existing :=
        same ▸ isChild.found
      have paths : info.oldPath = info.newFullPath := by
        rw [← (holds.entry existing foundSource).2, current.newFullPath,
          isChild.fullPath]
      refine ⟨path, marks, ?_⟩
      rw [← paths, rebase_same]
  | free _ movable =>
      exact movable.marks wf (holds.entry _ movable.found).2 marks
  | @replaced existing entry newEntry looked different pruned movable =>
      obtain ⟨before, foundBefore, -⟩ := pruned.source movable.found
      obtain ⟨kept, gotKept, place, -⟩ :=
        pruned.kept (fun same => different same.symm) foundBefore
      obtain rfl := Option.some.inj (gotKept.symm.trans movable.found)
      have oldPath : kept.fullPath = info.oldPath :=
        place.fullPath.trans (holds.entry before foundBefore).2
      obtain ⟨middle, marksMiddle, moved⟩ :=
        movable.marks (wf.pruned pruned) oldPath marks
      exact ⟨middle, (pruned.marks marksMiddle).1, moved⟩

theorem Applied.awaits (applied : Applied table info request now dropped after)
    (order : table.InOrder) (awaits : table.Awaits ino kind) :
    after.Awaits ino kind := by
  cases applied with
  | sameInode => exact awaits
  | free _ movable => exact movable.awaits order.wf awaits
  | @replaced existing entry newEntry looked different pruned movable =>
      have handles := keepsHandles_replaceTarget table existing request now
      apply movable.awaits (order.wf.pruned pruned)
      apply awaits.pruned pruned handles
      rintro rfl
      cases got : (table.replaceTarget existing request now).2.get
          existing.inode with
      | none => rfl
      | some other =>
          have opened := open_of_replaced order looked pruned got
          obtain ⟨before, found, same⟩ := handles.entry got
          rw [same, (awaits.entry before found).2.2] at opened
          cases opened

end

end InodeTable

end HfMount.Inode
