import HfMount.Flush.DeleteQueue
import HfMount.Vfs.Rename

/-!
# The phases of unlink, rename and link

Each call of the file system runs as a few steps between which it holds no
lock: it reads the inode table, waits for the Hub or changes the delete queue,
and changes the table in the end.
-/

namespace HfMount.Vfs

open SlashPath Inode Flush

structure VirtualFs where
  table : InodeTable
  flushManager : FlushManager
  staging : Ino → Option Bytes
  remote : Remote

/-- What `unlink` reads before it changes anything. -/
structure UnlinkInfo where
  parent : Ino
  name : Name
  ino : Ino
  fullPath : Path
  needsRemoteDelete : Bool
  deriving DecidableEq

structure LinkSource where
  path : Path
  xetHash : Hash
  size : Nat
  cipherSize : Option Nat
  mode : Nat
  uid : Nat
  gid : Nat
  deriving DecidableEq

structure LinkInfo where
  newparent : Ino
  newname : Name
  newFullPath : Path
  source : LinkSource
  deriving DecidableEq

namespace VirtualFs

/-! ## Unlink -/

/-- The remote delete is needed when the last link goes and the file is on the
hub. -/
def unlinkCheck (vfs : VirtualFs) (parent : Ino) (name : Name) :
    Except Errno UnlinkInfo :=
  match vfs.table.lookupChild parent name with
  | none => .error .enoent
  | some entry =>
      if entry.kind = .directory then .error .eisdir
      else .ok
        { parent
          name
          ino := entry.inode
          fullPath := entry.fullPath
          needsRemoteDelete := entry.xetHash.isSome && decide (entry.nlink ≤ 1) }

def unlinkEnqueue (vfs : VirtualFs) (info : UnlinkInfo) : VirtualFs :=
  if info.needsRemoteDelete then
    { vfs with flushManager := vfs.flushManager.enqueueDelete info.fullPath }
  else vfs

/-- The inode and its staging file go when the last link is gone and no handle
is open. -/
def unlinkLocal (vfs : VirtualFs) (info : UnlinkInfo) (now : Time) : VirtualFs :=
  let unlinked := vfs.table.unlinkOne info.parent info.name now
  let touched := unlinked.2.touchParent info.parent now
  if unlinked.1.getD false && !touched.hasOpenHandles info.ino then
    { vfs with
      table := touched.removeOrphan info.ino
      staging := Function.update vfs.staging info.ino none }
  else { vfs with table := touched }

/-! ## Rename -/

def renameRemote (vfs : VirtualFs) (info : RenameInfo) : VirtualFs :=
  { vfs with remote := batchOperations vfs.remote info.remoteOps }

/-- The destination path and, for a directory, everything below it. -/
def renameCancel (vfs : VirtualFs) (info : RenameInfo) : VirtualFs :=
  let cancelled := vfs.flushManager.cancelDelete info.newFullPath
  { vfs with
    flushManager :=
      if info.kind = .directory then
        cancelled.cancelDeletePrefix (info.newFullPath ++ ['/'])
      else cancelled }

/-- A source that has gone after the remote was changed counts as success; the
directories are listed again. -/
def renameApply (vfs : VirtualFs) (info : RenameInfo) (request : RenameRequest)
    (now : Time) : Option Errno × VirtualFs :=
  match vfs.table.renameApplyLocal info request now with
  | .ok (replaced, table) =>
      (none, { vfs with
        table
        staging := match replaced with
          | some ino => Function.update vfs.staging ino none
          | none => vfs.staging })
  | .error errno =>
      if errno = .enoent && !info.remoteOps.isEmpty then
        let invalidated := vfs.table.invalidateChildren request.parent
        (none, { vfs with
          table := if request.parent = request.newparent then invalidated
            else invalidated.invalidateChildren request.newparent })
      else (some errno, vfs)

/-- The destination is another name of the inode itself. -/
def renameSameInode (vfs : VirtualFs) (info : RenameInfo) (request : RenameRequest) :
    Bool :=
  (vfs.table.lookupChild request.newparent request.newname).any
    (·.inode = info.ino)

/-! ## Link -/

/-- Nothing when the source has no committed hash. -/
def linkSource (vfs : VirtualFs) (ino : Ino) : Except Errno (Option LinkSource) :=
  match vfs.table.get ino with
  | none => .error .enoent
  | some source =>
      if source.kind ≠ .file then .error .eperm
      else if source.isDirty then .ok none
      else .ok ((source.xetHash.filter (!·.isEmpty)).map fun hash =>
        { path := source.fullPath
          xetHash := hash
          size := source.size
          cipherSize := source.cipherSize
          mode := source.mode
          uid := source.uid
          gid := source.gid })

def linkValidate (vfs : VirtualFs) (ino newparent : Ino) (newname : Name) :
    Except Errno LinkInfo :=
  match vfs.linkSource ino with
  | .error errno => .error errno
  | .ok none => .error .enotsup
  | .ok (some source) =>
      match vfs.table.get newparent with
      | none => .error .enoent
      | some parentEntry =>
          if parentEntry.kind ≠ .directory then .error .enotdir
          else if (vfs.table.lookupChild newparent newname).isSome then
            .error .eexist
          else .ok
            { newparent
              newname
              newFullPath := childPath parentEntry.fullPath newname
              source }

def linkRemote (vfs : VirtualFs) (info : LinkInfo) : VirtualFs :=
  { vfs with
    remote := batchOperations vfs.remote
      [.addFile info.newFullPath info.source.xetHash] }

def linkCancel (vfs : VirtualFs) (info : LinkInfo) : VirtualFs :=
  { vfs with
    flushManager := vfs.flushManager.cancelDelete info.newFullPath }

/-- A newer entry under the name wins, although the remote has the alias. -/
def linkInsert (vfs : VirtualFs) (info : LinkInfo) (now : Time) :
    Option Errno × VirtualFs :=
  if (vfs.table.get info.newparent).isNone then (some .enoent, vfs)
  else if (vfs.table.lookupChild info.newparent info.newname).isSome then
    (some .eexist, vfs)
  else
    let inserted := vfs.table.insert info.newparent info.newname
      info.newFullPath .file info.source.size now (some info.source.xetHash)
      info.source.mode info.source.uid info.source.gid now
    let sized := match info.source.cipherSize with
      | some size => inserted.2.modify inserted.1 fun entry =>
          { entry with cipherSize := some size }
      | none => inserted.2
    (none, { vfs with table := sized.touchParent info.newparent now })

/-! ## The queue of remote deletes -/

/-- The Hub applies a batch of deletes. -/
def deleteRemote (vfs : VirtualFs) (paths : List Path) : VirtualFs :=
  { vfs with remote := batchOperations vfs.remote (paths.map .deleteFile) }

end VirtualFs

end HfMount.Vfs
