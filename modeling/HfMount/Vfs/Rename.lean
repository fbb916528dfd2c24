import HfMount.Inode.Relocate
import HfMount.Vfs.Remote

/-!
# Renames

A rename runs in three phases.  `renameValidate` reads the inode table and
collects what the other two need, `renameRemote` sends the additions and
deletions for clean files to the Hub, and `renameApplyLocal` changes the table.
Dirty files have nothing to move on the remote yet: they remember the path
that the next flush has to delete.
-/

namespace HfMount.Inode

open SlashPath Vfs

/-- The error numbers that these operations return. -/
inductive Errno where
  | eperm
  | enoent
  | eexist
  | enotdir
  | eisdir
  | einval
  | enotempty
  | enotsup
  deriving DecidableEq

/-- The arguments of a rename. -/
structure RenameRequest where
  parent : Ino
  name : Name
  newparent : Ino
  newname : Name
  noReplace : Bool
  deriving DecidableEq

structure RenameInfo where
  ino : Ino
  oldPath : Path
  kind : InodeKind
  xetHash : Option Hash
  isDirty : Bool
  newFullPath : Path
  /-- The clean files below a directory, with their hashes. -/
  descendantFiles : List (Path × Hash)
  deriving DecidableEq

/-- Why an inode of this kind cannot take the place of `existing`. -/
def destinationConflict (noReplace : Bool) (kind : InodeKind)
    (existing : InodeEntry) : Option Errno :=
  if noReplace then some .eexist
  else match kind, existing.kind with
    | .file, .directory | .symlink, .directory => some .eisdir
    | .directory, .file | .directory, .symlink => some .enotdir
    | .directory, .directory =>
        if existing.children.isEmpty then none else some .enotempty
    | _, _ => none

/-- The hash of a clean file, which the remote has. -/
def InodeEntry.cleanHash (entry : InodeEntry) : Option Hash :=
  if entry.kind = .file && !entry.isDirty then entry.xetHash else none

namespace InodeTable

/-- The walk from `ancestor` towards the root meets `src`. -/
def reaches (table : InodeTable) (src : Ino) : Nat → Ino → Bool
  | 0, _ => false
  | bound + 1, ancestor =>
      if ancestor = rootInode then false
      else if ancestor = src then true
      else match table.get ancestor with
        | some entry => table.reaches src bound entry.parent
        | none => false

/-- The children of the directories that a loop with an explicit stack of
directories visits from `ino` on. -/
def childrenBelow (table : InodeTable) (ino : Ino) : List Ino :=
  ((table.descendants table.depthBound ino).filter table.isDirectory).flatMap
    fun dir => ((table.get dir).elim [] (·.children)).map (·.ino)

/-- The clean files with a hash below a directory. -/
def cleanFilesBelow (table : InodeTable) (ino : Ino) : List (Path × Hash) :=
  (table.childrenBelow ino).filterMap fun child =>
    (table.get child).bind fun entry =>
      entry.cleanHash.map fun hash => (entry.fullPath, hash)

def renameInfo (table : InodeTable) (request : RenameRequest)
    (src newParentEntry : InodeEntry) : RenameInfo :=
  { ino := src.inode
    oldPath := src.fullPath
    kind := src.kind
    xetHash := src.xetHash
    isDirty := src.isDirty
    newFullPath := childPath newParentEntry.fullPath request.newname
    descendantFiles :=
      if src.kind = .directory then table.cleanFilesBelow src.inode else [] }

def renameValidate (table : InodeTable) (request : RenameRequest) :
    Except Errno RenameInfo :=
  match table.lookupChild request.parent request.name with
  | none => .error .enoent
  | some src =>
      match table.get request.newparent with
      | none => .error .enoent
      | some newParentEntry =>
          if src.kind = .directory &&
              table.reaches src.inode table.depthBound request.newparent then
            .error .einval
          else
            match (table.lookupChild request.newparent request.newname).bind
                (destinationConflict request.noReplace src.kind) with
            | some errno => .error errno
            | none => .ok (table.renameInfo request src newParentEntry)

end InodeTable

/-- The operations that `renameRemote` sends; nothing when there are none. -/
def RenameInfo.remoteOps (info : RenameInfo) : List BatchOp :=
  match info.kind, info.isDirty, info.xetHash with
  | .file, false, some hash =>
      [.addFile info.newFullPath hash, .deleteFile info.oldPath]
  | .directory, _, _ =>
      (info.descendantFiles.map fun file =>
        .addFile (info.newFullPath ++
          (info.oldPath.isPrefixOf? file.1).getD file.1) file.2) ++
      info.descendantFiles.map fun file => .deleteFile file.1
  | _, _, _ => []

namespace InodeEntry

def pushPendingDelete (entry : InodeEntry) (path : Path) : InodeEntry :=
  { entry with pendingDeletes := entry.pendingDeletes ++ [path] }

/-- A dirty file that is on the remote under its last committed hash. -/
def owesDelete (entry : InodeEntry) : Bool :=
  entry.kind = .file && entry.isDirty && entry.xetHash.isSome

end InodeEntry

namespace InodeTable

/-- The inode that is replaced leaves the tree.  The result names the one
whose staging file has to be dropped. -/
def replaceTarget (table : InodeTable) (existing : InodeEntry)
    (request : RenameRequest) (now : Time) : Option Ino × InodeTable :=
  if existing.kind = .directory then (none, table.remove existing.inode)
  else
    let unlinked := (table.unlinkOne request.newparent request.newname now).2
    if !unlinked.hasOpenHandles existing.inode &&
        (unlinked.get existing.inode).any (·.nlink = 0) then
      (some existing.inode, unlinked.removeOrphan existing.inode)
    else (none, unlinked)

/-- The renamed inode remembers its old path when it is a dirty file. -/
def recordOldPath (table : InodeTable) (info : RenameInfo) : InodeTable :=
  if info.isDirty && info.kind = .file && info.xetHash.isSome then
    table.modify info.ino (·.pushPendingDelete info.oldPath)
  else table

/-- One child of the loop over the dirty files of a renamed directory. -/
def recordDescendant (table : InodeTable) (child : Ino) : InodeTable :=
  match table.get child with
  | some entry =>
      if entry.owesDelete then
        table.modify child (·.pushPendingDelete entry.fullPath)
      else table
  | none => table

def recordDescendants (table : InodeTable) (info : RenameInfo) : InodeTable :=
  if info.kind = .directory then
    (table.childrenBelow info.ino).foldl recordDescendant table
  else table

/-- What `renameApplyLocal` does once the destination is free. -/
def moveRenamed (table : InodeTable) (info : RenameInfo)
    (request : RenameRequest) (now : Time) : InodeTable :=
  let recorded := (table.recordOldPath info).recordDescendants info
  let moved := recorded.relocate info.ino request.parent request.name
    info.oldPath request.newparent request.newname info.newFullPath
  let touched := moved.touchParent request.parent now
  let both := if request.parent = request.newparent then touched
    else touched.touchParent request.newparent now
  both.modify info.ino fun entry => { entry with ctime := now }

def renameApplyLocal (table : InodeTable) (info : RenameInfo)
    (request : RenameRequest) (now : Time) :
    Except Errno (Option Ino × InodeTable) :=
  match table.get info.ino with
  | none => .error .enoent
  | some _ =>
      match table.lookupChild request.newparent request.newname with
      | none => .ok (none, table.moveRenamed info request now)
      | some existing =>
          if existing.inode = info.ino then .ok (none, table)
          else
            match destinationConflict request.noReplace info.kind existing with
            | some errno => .error errno
            | none =>
                let replaced := table.replaceTarget existing request now
                .ok (replaced.1, replaced.2.moveRenamed info request now)

end InodeTable

end HfMount.Inode
