import HfMount.Vfs.NamedFiles
import HfMount.Vfs.OverlayFiles
import HfMount.Vfs.ReferenceCounts

/-!
# Files in the inode table of an overlay

Each operation on the table changes what the overlay needs to know about one
inode at most; a rename over a file that is closed changes two.
-/

namespace HfMount.Vfs.Overlay

open SlashPath Inode InodeTable

def fileNode (entry : InodeEntry) : Option FileNode :=
  if entry.kind = .directory then none
  else some
    { path := entry.fullPath
      linked := 0 < entry.nlink
      dirty := entry.isDirty
      openHandles := entry.eviction.openHandles }

def nodes (table : InodeTable) (ino : Ino) : Option FileNode :=
  (table.get ino).bind fileNode

theorem fileNode_of_file {entry : InodeEntry}
    (file : entry.kind ≠ .directory) : fileNode entry = some
      { path := entry.fullPath
        linked := 0 < entry.nlink
        dirty := entry.isDirty
        openHandles := entry.eviction.openHandles } :=
  if_neg file

theorem fileNode_eq_some {entry : InodeEntry} {file : FileNode} :
    fileNode entry = some file ↔ entry.kind ≠ .directory ∧
      file.path = entry.fullPath ∧ file.linked = decide (0 < entry.nlink) ∧
      file.dirty = entry.isDirty ∧
      file.openHandles = entry.eviction.openHandles := by
  unfold fileNode
  constructor
  · intro shown
    split at shown
    · cases shown
    · obtain rfl := Option.some.inj shown
      exact ⟨‹_›, rfl, rfl, rfl, rfl⟩
  · intro shown
    obtain ⟨notDirectory, path, linked, dirty, openHandles⟩ := shown
    rw [if_neg notDirectory, ← path, ← linked, ← dirty, ← openHandles]

theorem nodes_of_get {table : InodeTable} {ino : Ino} {entry : InodeEntry}
    (found : table.get ino = some entry) :
    nodes table ino = fileNode entry := by
  rw [nodes, found, Option.bind_some]

theorem nodes_eq_some {table : InodeTable} {ino : Ino} {file : FileNode} :
    nodes table ino = some file ↔ ∃ entry, table.get ino = some entry ∧
      fileNode entry = some file :=
  Option.bind_eq_some_iff

/-- Live files have different paths. -/
theorem pathsUnique_nodes {table : InodeTable} (wf : table.WellFormed) :
    PathsUnique (nodes table) := by
  intro ino other left right foundLeft foundRight linkedLeft linkedRight same
  obtain ⟨entry, found, shown⟩ := nodes_eq_some.mp foundLeft
  obtain ⟨again, foundAgain, shownAgain⟩ := nodes_eq_some.mp foundRight
  obtain ⟨file, path, links, _⟩ := fileNode_eq_some.mp shown
  obtain ⟨fileAgain, pathAgain, linksAgain, _⟩ := fileNode_eq_some.mp shownAgain
  rw [links] at linkedLeft
  rw [linksAgain] at linkedRight
  apply wf.unique found foundAgain
  · simp [InodeEntry.isLive, of_decide_eq_true linkedLeft]
  · simp [InodeEntry.isLive, of_decide_eq_true linkedRight]
  · rw [← path, ← pathAgain, same]

/-! ## Changes of one entry -/

theorem nodes_put (table : InodeTable) (ino : Ino) (entry : InodeEntry) :
    nodes (table.put ino entry) =
      Function.update (nodes table) ino (fileNode entry) := by
  funext other
  by_cases same : other = ino
  · subst same
    rw [nodes_of_get (get_put_self table other entry), Function.update_self]
  · rw [nodes, get_put_of_ne _ same, Function.update_of_ne same, nodes]

theorem nodes_modify {table : InodeTable} {ino : Ino} {entry : InodeEntry}
    (found : table.get ino = some entry) (change : InodeEntry → InodeEntry) :
    nodes (table.modify ino change) =
      Function.update (nodes table) ino (fileNode (change entry)) := by
  rw [modify_of_some found, nodes_put]

theorem nodes_modify_same (table : InodeTable) (ino : Ino)
    {change : InodeEntry → InodeEntry}
    (same : ∀ entry, fileNode (change entry) = fileNode entry) :
    nodes (table.modify ino change) = nodes table := by
  cases found : table.get ino with
  | none => rw [modify_of_none found]
  | some entry =>
      rw [nodes_modify found, same, ← nodes_of_get found,
        Function.update_eq_self]

theorem nodes_removePath (table : InodeTable) (path : Path) :
    nodes (table.removePath path) = nodes table := rfl

theorem nodes_erase (table : InodeTable) (ino : Ino) :
    nodes (table.erase ino) = Function.update (nodes table) ino none := by
  funext other
  rw [nodes, get_erase, Function.update_apply]
  split <;> rfl

theorem nodes_touchParent (table : InodeTable) (parent : Ino) (now : Time) :
    nodes (table.touchParent parent now) = nodes table :=
  nodes_modify_same table parent fun _ => rfl

theorem fileNode_removeChildByName (entry : InodeEntry) (name : Name) :
    fileNode (entry.removeChildByName name) = fileNode entry := by
  unfold InodeEntry.removeChildByName
  split <;> rfl

theorem fileNode_removeChildByIno (entry : InodeEntry) (ino : Ino) :
    fileNode (entry.removeChildByIno ino) = fileNode entry := by
  unfold InodeEntry.removeChildByIno
  split <;> rfl

/-! ## The operations -/

section

variable {table : InodeTable} {ino : Ino} {entry : InodeEntry}

/-- One handle more, or one less. -/
theorem nodes_bumpOpenHandles {file : FileNode}
    (shown : nodes table ino = some file) :
    nodes (table.bumpOpenHandles ino) = Function.update (nodes table) ino
      (some { file with openHandles := file.openHandles + 1 }) := by
  obtain ⟨entry, found, shown⟩ := nodes_eq_some.mp shown
  obtain ⟨notDirectory, path, linked, dirty, openHandles⟩ :=
    fileNode_eq_some.mp shown
  rw [bumpOpenHandles, nodes_modify found]
  congr 1
  exact fileNode_eq_some.mpr
    ⟨notDirectory, path, linked, dirty, by rw [openHandles]⟩

theorem nodes_dropOpenHandles {file : FileNode}
    (shown : nodes table ino = some file) :
    nodes (table.dropOpenHandles ino) = Function.update (nodes table) ino
      (some { file with openHandles := file.openHandles - 1 }) := by
  obtain ⟨entry, found, shown⟩ := nodes_eq_some.mp shown
  obtain ⟨notDirectory, path, linked, dirty, openHandles⟩ :=
    fileNode_eq_some.mp shown
  rw [dropOpenHandles, nodes_modify found]
  congr 1
  exact fileNode_eq_some.mpr
    ⟨notDirectory, path, linked, dirty, by rw [openHandles]⟩

/-- A new entry under a free name. -/
theorem nodes_insert (wf : table.WellFormed) {parent : Ino} {name : Name}
    {parentEntry : InodeEntry} (found : table.get parent = some parentEntry)
    (directory : parentEntry.kind = .directory) (valid : ValidName name)
    (free : parentEntry.childIndex name = none) (kind : InodeKind)
    (size : Nat) (mtime : Time) (xetHash : Option Hash) (mode uid gid : Nat)
    (now : Time) :
    ∃ after, table.insert parent name (childPath parentEntry.fullPath name)
        kind size mtime xetHash mode uid gid now = (table.nextInode, after) ∧
      after.get table.nextInode = some (.new table.nextInode parent name
        (childPath parentEntry.fullPath name) kind size mtime xetHash mode uid
        gid now table.touchCounter) ∧
      nodes after = Function.update (nodes table) table.nextInode
        (fileNode (.new table.nextInode parent name
          (childPath parentEntry.fullPath name) kind size mtime xetHash mode
          uid gid now table.touchCounter)) := by
  obtain ⟨after, inserted, _, _, foundNew, foundParent, others⟩ :=
    insert_of_free wf found directory valid free kind size mtime xetHash mode
      uid gid now
  refine ⟨after, inserted, foundNew, ?_⟩
  funext other
  by_cases isNew : other = table.nextInode
  · subst isNew
    rw [nodes_of_get foundNew, Function.update_self]
  rw [Function.update_of_ne isNew]
  by_cases isParent : other = parent
  · subst isParent
    have grown : (grownParent parentEntry table.nextInode name kind).kind =
        .directory := directory
    rw [nodes_of_get foundParent, nodes_of_get found, fileNode, fileNode,
      if_pos grown, if_pos directory]
  · rw [nodes, nodes, others other isNew isParent]

theorem lt_nextInode (wf : table.WellFormed) {file : FileNode}
    (shown : nodes table ino = some file) : ino < table.nextInode := by
  obtain ⟨entry, found, _⟩ := nodes_eq_some.mp shown
  exact (wf.key found).2

theorem nodes_nextInode (wf : table.WellFormed) :
    nodes table table.nextInode = none := by
  cases shown : nodes table table.nextInode with
  | none => rfl
  | some file => exact absurd (lt_nextInode wf shown) (Nat.lt_irrefl _)

/-- A file that is created is dirty and not open yet. -/
theorem nodes_createEntry (wf : table.WellFormed) {parent : Ino} {name : Name}
    {parentEntry : InodeEntry} (found : table.get parent = some parentEntry)
    (directory : parentEntry.kind = .directory) (valid : ValidName name)
    (free : parentEntry.childIndex name = none) (mode uid gid : Nat)
    (now : Time) :
    ∃ after, References.createEntry table parent name
        (childPath parentEntry.fullPath name) mode uid gid now =
          (table.nextInode, after) ∧
      nodes after = Function.update (nodes table) table.nextInode
        (some
          { path := childPath parentEntry.fullPath name
            linked := true
            dirty := true
            openHandles := 0 }) := by
  obtain ⟨after, inserted, foundNew, shows⟩ := nodes_insert wf found directory
    valid free .file 0 now none mode uid gid now
  refine ⟨_, by rw [References.createEntry, inserted], ?_⟩
  rw [nodes_touchParent, nodes_modify foundNew, shows, Function.update_idem]
  rfl

/-- A file loses its name and its link. -/
theorem nodes_unlinkOne (wf : table.WellFormed) {parent : Ino} {name : Name}
    (looked : table.lookupChild parent name = some entry)
    (file : entry.kind ≠ .directory) (now : Time) :
    (table.unlinkOne parent name now).1 = some true ∧
      (table.unlinkOne parent name now).2.get entry.inode = some { entry with
        nlink := 0
        ctime := now } ∧
      nodes (table.unlinkOne parent name now).2 =
        Function.update (nodes table) entry.inode (fileNode { entry with
          nlink := 0 }) := by
  obtain ⟨_, _, _, _, _, _, unlinked⟩ := unlinkOne_eq wf looked file now
  rw [unlinked]
  refine ⟨rfl, get_put_self _ _ _, ?_⟩
  rw [nodes_put, nodes_removePath,
    nodes_modify_same _ _ fun entry => fileNode_removeChildByName entry name]
  rfl

/-- Only an inode without links goes. -/
theorem nodes_removeOrphan (order : table.InOrder)
    (found : table.get ino = some entry) :
    nodes (table.removeOrphan ino) = if entry.nlink = 0 then
        Function.update (nodes table) ino none
      else nodes table := by
  rcases removeOrphan_cases order ino with ⟨same, linked⟩ |
    ⟨other, foundOther, dead, erased, _⟩
  · rw [if_neg (Nat.ne_of_gt (linked entry found)), same]
  · obtain rfl := Option.some.inj (foundOther.symm.trans found)
    have noLinks : other.nlink = 0 := by
      have notLive := (order.live_of_nlink found).not.mp (by simp [dead])
      omega
    rw [if_pos noLinks, erased, nodes_erase]

theorem nodes_evictIfSafe (found : table.get ino = some entry) :
    (table.evictIfSafe ino).1 = entry.isUnreferenced ∧
      nodes (table.evictIfSafe ino).2 = if entry.isUnreferenced then
          Function.update (nodes table) ino none
        else nodes table := by
  have checks : entry.isUnreferenced = (entry.kind = .file &&
      entry.eviction.nlookup == 0 && !entry.isDirty &&
      entry.pendingDeletes.isEmpty && decide (0 < entry.nlink)) := rfl
  unfold InodeTable.evictIfSafe
  rw [found]
  dsimp only
  rw [← checks]
  split
  · refine ⟨by simp_all, ?_⟩
    rw [nodes_modify_same, nodes_removePath, nodes_erase]
    exact fun parentEntry => fileNode_removeChildByIno parentEntry ino
  · refine ⟨by simp_all, rfl⟩

/-- The last close takes an inode without links, or a clean one, and names its
backing file. -/
theorem nodes_reap (order : table.InOrder)
    (found : table.get ino = some entry) :
    ((entry.nlink = 0 ∨ entry.isDirty = false) ∧
      nodes (table.reapOnLastRelease true ino).table =
        Function.update (nodes table) ino none ∧
      (table.reapOnLastRelease true ino).overlayPath = some entry.fullPath) ∨
    (nodes (table.reapOnLastRelease true ino).table = nodes table ∧
      (table.reapOnLastRelease true ino).overlayPath = none) := by
  by_cases orphan : entry.nlink = 0
  · left
    have removed := nodes_removeOrphan order found
    rw [if_pos orphan] at removed
    have gone : (table.removeOrphan ino).get ino = none := by
      rcases removeOrphan_cases order ino with ⟨_, linked⟩ | ⟨_, _, _, erased, _⟩
      · exact absurd orphan (Nat.ne_of_gt (linked entry found))
      · rw [erased, get_erase_self]
    have unpending : (table.removeOrphan ino).evictPending ino =
        (false, table.removeOrphan ino) := by
      simp [evictPending, takeEvictPending, gone, modifyEviction,
        modify_of_none]
    refine ⟨Or.inl orphan, ?_, ?_⟩
    · rw [reapOnLastRelease, unpending, removed]
    · simp [reapOnLastRelease, found, orphan]
  · have linked : table.removeOrphan ino = table := by
      apply removeOrphan_of_linked
      intro other foundOther
      obtain rfl := Option.some.inj (found.symm.trans foundOther)
      exact Nat.pos_of_ne_zero orphan
    have taken : nodes (table.takeEvictPending ino).2 = nodes table :=
      nodes_modify_same _ _ fun _ => rfl
    have foundTaken : (table.takeEvictPending ino).2.get ino =
        some { entry with
          eviction := { entry.eviction with evictPending := false } } := by
      rw [takeEvictPending, get_modifyEviction, if_pos rfl, found,
        Option.map_some]
    obtain ⟨evicted, evictedNodes⟩ := nodes_evictIfSafe foundTaken
    have same : ({ entry with eviction :=
        { entry.eviction with evictPending := false } } :
          InodeEntry).isUnreferenced = entry.isUnreferenced := rfl
    rw [same] at evicted evictedNodes
    have pending : table.evictPending ino = if entry.eviction.evictPending then
        (table.takeEvictPending ino).2.evictIfSafe ino
      else (false, (table.takeEvictPending ino).2) := by
      cases flag : entry.eviction.evictPending <;>
        simp [evictPending, takeEvictPending, found, flag]
    simp only [reapOnLastRelease, linked, found, Option.any_some, orphan,
      decide_false, Bool.false_or, Bool.true_and, Option.map_some, pending]
    cases flag : entry.eviction.evictPending with
    | false =>
        right
        exact ⟨taken, rfl⟩
    | true =>
        simp only [if_true, evicted, evictedNodes, taken]
        cases unreferenced : entry.isUnreferenced with
        | false => exact Or.inr ⟨rfl, rfl⟩
        | true =>
            left
            exact ⟨Or.inr (InodeEntry.isUnreferenced_iff.mp unreferenced).clean,
              rfl, rfl⟩

/-! ## Renames -/

/-- Below a file there is nothing whose path would change. -/
theorem nodes_updateSubtreePaths (found : table.get ino = some entry)
    (leaf : entry.children = []) (newFullPath : Path) :
    nodes (table.updateSubtreePaths ino newFullPath) =
      Function.update (nodes table) ino
        (fileNode { entry with fullPath := newFullPath }) := by
  have moved : table.updateSubtreePaths ino newFullPath =
      table.setPath (ino, newFullPath) := by
    unfold updateSubtreePaths depthBound updateSubtreePathsFrom
    rw [found]
    simp only [leaf, List.foldl_nil]
  have set : table.setPath (ino, newFullPath) =
      ((table.removePath entry.fullPath).put ino
        { entry with fullPath := newFullPath }).insertPath newFullPath ino := by
    simp only [setPath, found]
  rw [moved, set]
  exact nodes_put (table.removePath entry.fullPath) ino _

theorem nodes_moveChild (file : table.isDirectory ino = false)
    (oldParent : Ino) (oldName : Name) (newParent : Ino) (newName : Name) :
    nodes (table.moveChild ino oldParent oldName newParent newName) =
      nodes table := by
  unfold moveChild
  simp only [file, Bool.false_and, Bool.false_eq_true, if_false]
  rw [nodes_modify_same, nodes_modify_same, nodes_modify_same]
  · exact fun entry => fileNode_removeChildByName entry oldName
  · exact fun _ => rfl
  · exact fun _ => rfl

theorem nodes_touchRenamed (table : InodeTable) (info : RenameInfo)
    (request : RenameRequest) (now : Time) :
    nodes (table.touchRenamed info request now) = nodes table := by
  unfold touchRenamed
  dsimp only
  rw [nodes_modify_same]
  · split
    · exact nodes_touchParent _ _ _
    · rw [nodes_touchParent, nodes_touchParent]
  · exact fun _ => rfl

theorem nodes_owing {after : InodeTable}
    (owing : Corresponding InodeEntry.Owing table after) :
    nodes after = nodes table := by
  funext other
  cases found : table.get other with
  | none => rw [nodes, nodes, found, owing.get_eq_none found]
  | some entry =>
      obtain ⟨last, got, pending, rfl⟩ := owing.forward found
      rw [nodes_of_get got, nodes_of_get found]
      rfl

/-- Moving a file changes its path alone. -/
theorem nodes_moveRenamed (wf : table.WellFormed) {info : RenameInfo}
    {request : RenameRequest} {newEntry : InodeEntry} (now : Time)
    (movable : table.Movable info request entry newEntry)
    (file : entry.kind ≠ .directory) :
    nodes (table.moveRenamed info request now) =
      Function.update (nodes table) info.ino
        (fileNode { entry with fullPath := info.newFullPath }) := by
  obtain ⟨_, recorded, _, recordedDef, recordedWf, _⟩ :=
    movable.moveRenamed wf now
  have owing : Corresponding InodeEntry.Owing table recorded :=
    recordedDef ▸ table.owing_record info
  obtain ⟨noted, foundNoted, pending, rfl⟩ := owing.forward movable.found
  have notParent : ∀ {parent : Ino} {parentEntry : InodeEntry},
      table.get parent = some parentEntry →
      parentEntry.kind = .directory → info.ino ≠ parent := by
    intro parent parentEntry found directory same
    rw [← same, movable.found] at found
    obtain rfl := Option.some.inj found
    exact file directory
  obtain ⟨oldParentEntry, foundOld, oldDirectory, _⟩ :=
    wf.parent movable.found movable.notRoot movable.live
  rw [movable.parent] at foundOld
  have notDirectory : (recorded.removePath info.oldPath).isDirectory info.ino =
      false := by
    rw [isDirectory, get_removePath, foundNoted]
    simpa using file
  have attached : ((recorded.removePath info.oldPath).moveChild info.ino
      request.parent request.name request.newparent request.newname).get
        info.ino = _ :=
    get_moveChild_self request.name request.newname
      (notParent foundOld oldDirectory)
      (notParent movable.destination.found movable.destination.directory)
  rw [get_removePath, foundNoted, Option.map_some] at attached
  have leaf : entry.children = [] := wf.children_of_file movable.found file
  rw [moveRenamed_eq, nodes_touchRenamed, ← recordedDef, relocate,
    nodes_updateSubtreePaths attached leaf, nodes_moveChild notDirectory,
    nodes_removePath, nodes_owing owing]
  rfl

end

end HfMount.Vfs.Overlay
