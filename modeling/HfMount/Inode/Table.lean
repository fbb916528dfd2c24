import HfMount.Inode.Entry
import Mathlib.Data.List.AList

/-!
# The inode table

The table maps inode numbers to entries and live paths to inode numbers.  The
entries are an association list because several operations walk over all of
them; the order of that walk is arbitrary in the source.
-/

namespace HfMount.Inode

open SlashPath

structure InodeTable where
  inodes : AList fun _ : Ino => InodeEntry
  pathToInode : Path → Option Ino
  nextInode : Ino
  touchCounter : Nat

namespace InodeTable

/-- The root entry of a new table. -/
def rootEntry : InodeEntry :=
  { InodeEntry.new rootInode rootInode [] [] .directory 0 0 none 493 0 0 0 0 with
    lastRevalidated := none }

def new : InodeTable :=
  { inodes := AList.singleton rootInode rootEntry
    pathToInode := Function.update (fun _ => none) [] (some rootInode)
    nextInode := 2
    touchCounter := 0 }

def get (table : InodeTable) (ino : Ino) : Option InodeEntry :=
  table.inodes.lookup ino

/-- All entries, in an arbitrary order. -/
def values (table : InodeTable) : List InodeEntry :=
  table.inodes.entries.map (·.2)

def put (table : InodeTable) (ino : Ino) (entry : InodeEntry) : InodeTable :=
  { table with inodes := table.inodes.insert ino entry }

def erase (table : InodeTable) (ino : Ino) : InodeTable :=
  { table with inodes := table.inodes.erase ino }

/-- `get_mut` followed by a change of the entry. -/
def modify (table : InodeTable) (ino : Ino)
    (change : InodeEntry → InodeEntry) : InodeTable :=
  match table.get ino with
  | some entry => table.put ino (change entry)
  | none => table

def removePath (table : InodeTable) (path : Path) : InodeTable :=
  { table with pathToInode := Function.update table.pathToInode path none }

def insertPath (table : InodeTable) (path : Path) (ino : Ino) : InodeTable :=
  { table with pathToInode := Function.update table.pathToInode path (some ino) }

def getByPath (table : InodeTable) (path : Path) : Option InodeEntry :=
  (table.pathToInode path).bind table.get

def lookupChild (table : InodeTable) (parent : Ino) (name : Name) :
    Option InodeEntry :=
  ((table.get parent).bind (·.childIndex name)).bind table.get

def hasOpenHandles (table : InodeTable) (ino : Ino) : Bool :=
  (table.get ino).any (·.hasOpenHandles)

def bumpOpenHandles (table : InodeTable) (ino : Ino) : InodeTable :=
  table.modify ino fun entry =>
    { entry with eviction := { entry.eviction with
        openHandles := entry.eviction.openHandles + 1 } }

def dropOpenHandles (table : InodeTable) (ino : Ino) : InodeTable :=
  table.modify ino fun entry =>
    { entry with eviction := { entry.eviction with
        openHandles := entry.eviction.openHandles - 1 } }

/-- Insert an inode, or return the one that is already at the path. -/
def insert (table : InodeTable) (parent : Ino) (name : Name) (fullPath : Path)
    (kind : InodeKind) (size : Nat) (mtime : Time) (xetHash : Option Hash)
    (mode uid gid : Nat) (now : Time) : Ino × InodeTable :=
  match table.pathToInode fullPath with
  | some existing =>
      (existing, table.modify existing fun entry =>
        { entry with lastRevalidated := some now })
  | none =>
      let inode := table.nextInode
      let entry := InodeEntry.new inode parent name fullPath kind size mtime
        xetHash mode uid gid now table.touchCounter
      let inserted := { table with
        inodes := table.inodes.insert inode entry
        pathToInode :=
          Function.update table.pathToInode fullPath (some inode)
        nextInode := table.nextInode + 1
        touchCounter := table.touchCounter + 1 }
      (inode, inserted.modify parent fun parentEntry =>
        let added := parentEntry.addChild inode name
        { added with
          nlink := if kind = .directory then added.nlink + 1
            else added.nlink })

def isChildrenLoaded (table : InodeTable) (ino : Ino) : Bool :=
  (table.get ino).any (·.childrenLoaded)

def invalidateChildren (table : InodeTable) (ino : Ino) : InodeTable :=
  table.modify ino fun entry => { entry with childrenLoadedAt := none }

/-- Full path of every directory whose children are loaded. -/
def loadedDirPrefixes (table : InodeTable) : List Path :=
  (table.values.filter fun entry =>
    entry.kind = .directory && entry.childrenLoaded).map (·.fullPath)

def dirtyInos (table : InodeTable) : List Ino :=
  (table.values.filter fun entry =>
    entry.kind = .file && entry.isDirty && decide (0 < entry.nlink)).map
      (·.inode)

/-- The file entries; the source clones the fields that a poll compares. -/
def fileSnapshot (table : InodeTable) : List InodeEntry :=
  table.values.filter fun entry => entry.kind = .file

/-- Replaces the remote metadata of a file that is not dirty; the flag says
whether it did. -/
def updateRemoteFile (table : InodeTable) (ino : Ino) (hash etag : Option Hash)
    (size : Nat) (mtime : Time) (cipherSize : Option Nat) :
    Bool × InodeTable :=
  match table.get ino with
  | none => (false, table)
  | some entry =>
      if entry.isDirty then (false, table)
      else (true, table.put ino
        { entry with
          xetHash := hash
          etag
          size
          cipherSize
          mtime
          stagingIsCurrent := false })

/-- Merges a partial remote update into a file that is not dirty. -/
def mergeRemoteFile (table : InodeTable) (ino : Ino) (hash : Option Hash)
    (size : Option Nat) (mtime : Option Time) : Bool × InodeTable :=
  match table.get ino with
  | none => (false, table)
  | some entry =>
      if entry.isDirty then (false, table)
      else (true, table.put ino
        { entry with
          xetHash := hash.orElse fun _ => entry.xetHash
          size := size.getD entry.size
          mtime := mtime.getD entry.mtime
          stagingIsCurrent := false })

def getDirIno (table : InodeTable) (path : Path) : Option Ino :=
  ((table.getByPath path).filter fun entry => entry.kind = .directory).map
    (·.inode)

/-- The search of `nearestDirAncestor`; the length of the path bounds it. -/
def nearestDirAncestorFrom (table : InodeTable) : Nat → Path → Ino × Path
  | 0, _ => (rootInode, [])
  | bound + 1, path =>
      match table.getDirIno (parentPath path) with
      | some dir => (dir, parentPath path)
      | none =>
          if (parentPath path).isEmpty then (rootInode, [])
          else table.nearestDirAncestorFrom bound (parentPath path)

/-- The nearest directory of the table above a path. -/
def nearestDirAncestor (table : InodeTable) (path : Path) : Ino × Path :=
  table.nearestDirAncestorFrom (path.length + 1) path

def detachFromParent (table : InodeTable) (parent child : Ino)
    (childKind : InodeKind) : InodeTable :=
  table.modify parent fun entry =>
    let removed := entry.removeChildByIno child
    { removed with
      nlink := if childKind = .directory then removed.nlink - 1
        else removed.nlink }

/-! ## Walks over a subtree -/

/-- A bound for the depth of the tree: every path is at most this long. -/
def depthBound (table : InodeTable) : Nat :=
  (table.values.map fun entry => entry.fullPath.length).foldr max 0 + 1

/-- The inodes that a loop with an explicit stack visits from `ino` on; it
takes the last child first. -/
def descendants (table : InodeTable) : Nat → Ino → List Ino
  | 0, ino => [ino]
  | depth + 1, ino =>
      match table.get ino with
      | none => [ino]
      | some entry =>
          ino :: (entry.children.reverse.map (·.ino)).flatMap
            (table.descendants depth)

/-- The inode or something below it is dirty or open. -/
def hasDirtyOrOpenDescendants (table : InodeTable) (ino : Ino) : Bool :=
  (table.descendants table.depthBound ino).any fun current =>
    (table.get current).any fun entry =>
      entry.isDirty || entry.hasOpenHandles

/-- The entry and its path mapping are dropped; the parent is not touched. -/
def dropEntry (table : InodeTable) (ino : Ino) : InodeTable :=
  match table.get ino with
  | some entry => (table.erase ino).removePath entry.fullPath
  | none => table

/-- Removes an inode, its place in the parent and everything below it. -/
def remove (table : InodeTable) (ino : Ino) : InodeTable :=
  match table.get ino with
  | none => table
  | some entry =>
      let detached :=
        (table.dropEntry ino).detachFromParent entry.parent ino entry.kind
      let below := (entry.children.reverse.map (·.ino)).flatMap
        (detached.descendants table.depthBound)
      below.foldl dropEntry detached

/-- One node of `updateSubtreePaths`: the old mapping goes, the new path and
mapping are set. -/
def setPath (table : InodeTable) (move : Ino × Path) : InodeTable :=
  match table.get move.1 with
  | some entry =>
      ((table.removePath entry.fullPath).put move.1
        { entry with fullPath := move.2 }).insertPath move.2 move.1
  | none => table

/-- The recursion of `updateSubtreePaths`, with a bound for its depth. -/
def updateSubtreePathsFrom (table : InodeTable) : Nat → Ino → Path → InodeTable
  | 0, _, _ => table
  | depth + 1, ino, newFullPath =>
      match table.get ino with
      | none => table
      | some entry =>
          entry.children.foldl
            (fun current child => current.updateSubtreePathsFrom depth child.ino
              (childPath newFullPath child.name))
            (table.setPath (ino, newFullPath))

def updateSubtreePaths (table : InodeTable) (ino : Ino) (newFullPath : Path) :
    InodeTable :=
  table.updateSubtreePathsFrom table.depthBound ino newFullPath

/-! ## Changes of the tree -/

/-- Removes one directory entry by name and one link of its inode; the flag
says whether that was the last link, and is missing when the source returns
early. -/
def unlinkOne (table : InodeTable) (parent : Ino) (name : Name) (now : Time) :
    Option Bool × InodeTable :=
  match table.get parent with
  | none => (none, table)
  | some parentEntry =>
      match parentEntry.childIndex name with
      | none => (none, table)
      | some child =>
          let unnamed := (table.modify parent (·.removeChildByName name)).removePath
            (childPath parentEntry.fullPath name)
          match unnamed.get child with
          | none => (none, unnamed)
          | some entry =>
              (some (entry.nlink - 1 = 0), unnamed.put child
                { entry with
                  nlink := entry.nlink - 1
                  ctime := now })

/-- Removes an inode whose last link is gone, and its path mapping unless the
path belongs to another inode by now. -/
def removeOrphan (table : InodeTable) (ino : Ino) : InodeTable :=
  match table.get ino with
  | some entry =>
      if entry.nlink = 0 then
        if table.pathToInode entry.fullPath = some ino then
          (table.erase ino).removePath entry.fullPath
        else table.erase ino
      else table
  | none => table

/-- Drops a clean file that the kernel has forgotten; its directory has to be
listed again. -/
def evictIfSafe (table : InodeTable) (ino : Ino) : Bool × InodeTable :=
  match table.get ino with
  | none => (false, table)
  | some entry =>
      if entry.kind = .file && entry.eviction.nlookup == 0 &&
          !entry.isDirty && entry.pendingDeletes.isEmpty &&
          decide (0 < entry.nlink) then
        (true, ((table.erase ino).removePath entry.fullPath).modify entry.parent
          fun parentEntry =>
            { parentEntry.removeChildByIno ino with childrenLoadedAt := none })
      else (false, table)

def isDirectory (table : InodeTable) (ino : Ino) : Bool :=
  (table.get ino).any fun entry => entry.kind = .directory

/-- Moves a directory entry; the path mappings are left to
`updateSubtreePaths`. -/
def moveChild (table : InodeTable) (ino oldParent : Ino) (oldName : Name)
    (newParent : Ino) (newName : Name) : InodeTable :=
  let isDir := table.isDirectory ino
  let detached := table.modify oldParent (·.removeChildByName oldName)
  let attached := detached.modify newParent (·.addChild ino newName)
  let counted :=
    if isDir && oldParent != newParent then
      (attached.modify oldParent fun entry =>
        { entry with nlink := entry.nlink - 1 }).modify newParent fun entry =>
          { entry with nlink := entry.nlink + 1 }
    else attached
  counted.modify ino fun entry =>
    { entry with
      parent := newParent
      name := newName }

def touchParent (table : InodeTable) (parent : Ino) (now : Time) :
    InodeTable :=
  table.modify parent fun entry =>
    { entry with
      mtime := now
      ctime := now }

/-! ## Lookups after an update -/

@[simp] theorem get_put_self (table : InodeTable) (ino : Ino)
    (entry : InodeEntry) : (table.put ino entry).get ino = some entry :=
  AList.lookup_insert _

theorem get_put_of_ne (table : InodeTable) {ino other : Ino}
    (distinct : other ≠ ino) (entry : InodeEntry) :
    (table.put ino entry).get other = table.get other :=
  AList.lookup_insert_ne distinct

theorem get_put (table : InodeTable) (ino other : Ino) (entry : InodeEntry) :
    (table.put ino entry).get other =
      if other = ino then some entry else table.get other := by
  split <;> rename_i same
  · rw [same, get_put_self]
  · exact table.get_put_of_ne same entry

@[simp] theorem get_erase_self (table : InodeTable) (ino : Ino) :
    (table.erase ino).get ino = none :=
  AList.lookup_erase ino _

theorem get_erase (table : InodeTable) (ino other : Ino) :
    (table.erase ino).get other =
      if other = ino then none else table.get other := by
  split <;> rename_i same
  · rw [same, get_erase_self]
  · exact AList.lookup_erase_ne same

@[simp] theorem get_removePath (table : InodeTable) (path : Path)
    (ino : Ino) : (table.removePath path).get ino = table.get ino := rfl

@[simp] theorem get_insertPath (table : InodeTable) (path : Path)
    (target ino : Ino) :
    (table.insertPath path target).get ino = table.get ino := rfl

theorem modify_of_some {table : InodeTable} {ino : Ino} {entry : InodeEntry}
    (found : table.get ino = some entry) (change : InodeEntry → InodeEntry) :
    table.modify ino change = table.put ino (change entry) := by
  simp only [modify, found]

theorem modify_of_none {table : InodeTable} {ino : Ino}
    (missing : table.get ino = none) (change : InodeEntry → InodeEntry) :
    table.modify ino change = table := by
  simp only [modify, missing]

theorem get_modify (table : InodeTable) (ino other : Ino)
    (change : InodeEntry → InodeEntry) :
    (table.modify ino change).get other =
      if other = ino then (table.get ino).map change else table.get other := by
  cases found : table.get ino with
  | none =>
      rw [modify_of_none found]
      split <;> rename_i same
      · rw [same, found]
        rfl
      · rfl
  | some entry =>
      rw [modify_of_some found, get_put]
      rfl

theorem get_modify_of_ne (table : InodeTable) {ino other : Ino}
    (distinct : other ≠ ino) (change : InodeEntry → InodeEntry) :
    (table.modify ino change).get other = table.get other := by
  rw [get_modify, if_neg distinct]

@[simp] theorem pathToInode_put (table : InodeTable) (ino : Ino)
    (entry : InodeEntry) :
    (table.put ino entry).pathToInode = table.pathToInode := rfl

@[simp] theorem pathToInode_erase (table : InodeTable) (ino : Ino) :
    (table.erase ino).pathToInode = table.pathToInode := rfl

@[simp] theorem pathToInode_modify (table : InodeTable) (ino : Ino)
    (change : InodeEntry → InodeEntry) :
    (table.modify ino change).pathToInode = table.pathToInode := by
  unfold modify
  split <;> rfl

@[simp] theorem nextInode_modify (table : InodeTable) (ino : Ino)
    (change : InodeEntry → InodeEntry) :
    (table.modify ino change).nextInode = table.nextInode := by
  unfold modify
  split <;> rfl

@[simp] theorem touchCounter_modify (table : InodeTable) (ino : Ino)
    (change : InodeEntry → InodeEntry) :
    (table.modify ino change).touchCounter = table.touchCounter := by
  unfold modify
  split <;> rfl

/-- The entries of the walk over the table are those that lookups find. -/
theorem mem_values {table : InodeTable} {entry : InodeEntry} :
    entry ∈ table.values ↔ ∃ ino, table.get ino = some entry := by
  unfold values get
  constructor
  · intro member
    obtain ⟨⟨ino, found⟩, listed, rfl⟩ := List.mem_map.mp member
    exact ⟨ino, AList.mem_lookup_iff.mpr listed⟩
  · rintro ⟨ino, found⟩
    exact List.mem_map.mpr ⟨⟨ino, entry⟩, AList.mem_lookup_iff.mp found, rfl⟩

/-- A new table has nothing but the root. -/
theorem eq_root_of_get_new {ino : Ino} {entry : InodeEntry}
    (found : new.get ino = some entry) :
    ino = rootInode ∧ entry = rootEntry := by
  have listed := AList.mem_lookup_iff.mp found
  simp only [new, AList.singleton_entries, List.mem_singleton,
    Sigma.mk.injEq] at listed
  obtain ⟨rfl, same⟩ := listed
  exact ⟨rfl, eq_of_heq same⟩

theorem isDirectory_iff {table : InodeTable} {ino : Ino} :
    table.isDirectory ino = true ↔
      ∃ entry, table.get ino = some entry ∧ entry.kind = .directory := by
  unfold isDirectory
  cases found : table.get ino with
  | none => simp
  | some entry => simp

theorem isDirectory_of_get {table : InodeTable} {ino : Ino}
    {entry : InodeEntry} (found : table.get ino = some entry) :
    table.isDirectory ino = decide (entry.kind = .directory) := by
  simp [isDirectory, found]

theorem path_lt_depthBound {table : InodeTable} {ino : Ino}
    {entry : InodeEntry} (found : table.get ino = some entry) :
    entry.fullPath.length < table.depthBound := by
  have member : entry.fullPath.length ∈
      table.values.map fun entry => entry.fullPath.length :=
    List.mem_map.mpr ⟨entry, mem_values.mpr ⟨ino, found⟩, rfl⟩
  have bounded : ∀ lengths : List Nat, ∀ length ∈ lengths,
      length ≤ lengths.foldr max 0 := by
    intro lengths
    induction lengths with
    | nil => simp
    | cons head tail ih =>
        intro length listed
        rcases List.mem_cons.mp listed with rfl | later
        · exact Nat.le_max_left _ _
        · exact Nat.le_trans (ih length later) (Nat.le_max_right _ _)
  exact Nat.lt_succ_of_le (bounded _ _ member)

end InodeTable

end HfMount.Inode
