import HfMount.Encryption.Content
import HfMount.Vfs.Calls
import HfMount.Vfs.Namespace
import HfMount.Vfs.References

/-!
# Create, link and rename, one step at a time

The three calls change the inode table, cancel queued deletes and wait for a
disk, for Xet or for the Hub, and each step of them may fail.  Between two
steps any other call may change the table and the queue.  The listings that a
call loads on its way count as changes of others.
-/

namespace HfMount.Inode

open SlashPath

/-- Something below the inode is not dirty. -/
def InodeTable.hasCleanDescendants (table : InodeTable) (ino : Ino) : Bool :=
  (table.descendants table.depthBound ino).tail.any fun current =>
    (table.get current).any (!·.isDirty)

end HfMount.Inode

namespace HfMount.Vfs

open SlashPath Inode Flush Transition

/-- An error of the inode table, of a guard, of the local disk, or the one that
the Hub or a streaming commit reports. -/
inductive CallErrno where
  | table (errno : Errno)
  | erofs
  | eacces
  | einval
  | eio
  | reported (errno : Nat)
  deriving DecidableEq

/-- Where the content of a new file goes: a streaming writer in simple mode, a
staging or overlay file with advanced writes, a ciphertext container on an
encrypted mount. -/
inductive CreateMode where
  | streaming
  | localFile
  | encrypted
  deriving DecidableEq

inductive BackingStep where
  | writer
  | openFile
  | setMode
  | container
  | openContainer
  deriving DecidableEq

/-- What a create does for the content, in this order. -/
def CreateMode.backingSteps : CreateMode → List BackingStep
  | .streaming => [.writer]
  | .localFile => [.openFile, .setMode]
  | .encrypted => [.container, .setMode, .openContainer]

/-- The inode is removed again when the step fails.  `create_encrypted` passes
the failures of the container on with `?`. -/
def BackingStep.undone : BackingStep → Bool
  | .writer | .openFile | .setMode => true
  | .container | .openContainer => false

/-- `guard` refuses the names of OS files, and names that encryption cannot
store. -/
structure MountOptions where
  readOnly : Bool
  overlay : Bool
  createMode : CreateMode
  guard : Name → Option CallErrno

structure CreateRequest where
  parent : Ino
  name : Name
  mode : Nat
  uid : Nat
  gid : Nat
  deriving DecidableEq

structure LinkRequest where
  ino : Ino
  newparent : Ino
  newname : Name
  deriving DecidableEq

/-- The file that a create has inserted. -/
structure CreatedFile where
  ino : Ino
  parent : Ino
  name : Name
  fullPath : Path
  deriving DecidableEq

/-- How far a call has come. -/
inductive NameCall where
  | create (request : CreateRequest)
  | createInserted (file : CreatedFile)
  | createBacking (file : CreatedFile) (steps : List BackingStep)
  | link (request : LinkRequest)
  /-- Without a source there is an open streaming channel to commit. -/
  | linkSourced (request : LinkRequest) (source : Option LinkSource)
  | linkPlaced (request : LinkRequest) (newFullPath : Path)
      (source : Option LinkSource)
  | linkCommitted (request : LinkRequest) (newFullPath : Path)
  | linkReady (info : LinkInfo)
  | linkSent (info : LinkInfo)
  | linkCancelled (info : LinkInfo)
  | rename (request : RenameRequest)
  | renameAllowed (request : RenameRequest)
  | renameLoaded (request : RenameRequest)
  | renameValidated (request : RenameRequest) (info : RenameInfo)
  | renameChecked (request : RenameRequest) (info : RenameInfo)
  | renameSent (request : RenameRequest) (info : RenameInfo) (mutated : Bool)
  | renameCancelled (request : RenameRequest) (info : RenameInfo)
      (mutated : Bool)
  | returned (result : Except CallErrno Unit)
  deriving DecidableEq

/-- A call that has not begun. -/
def NameCall.isStart : NameCall → Bool
  | .create _ | .link _ | .rename _ => true
  | _ => false

namespace MountOptions

/-- What the three calls check before anything else. -/
def refuses (options : MountOptions) (name : Name) : Option CallErrno :=
  if options.readOnly then some .erofs else options.guard name

end MountOptions

namespace VirtualFs

def fails (vfs : VirtualFs) (errno : CallErrno) : VirtualFs × NameCall :=
  (vfs, .returned (.error errno))

/-! ## Create -/

/-- A new file is dirty from the start. -/
def insertCreated (vfs : VirtualFs) (request : CreateRequest)
    (parentEntry : InodeEntry) (now : Time) : VirtualFs × CreatedFile :=
  let fullPath := childPath parentEntry.fullPath request.name
  let inserted := vfs.table.insert request.parent request.name fullPath .file 0
    now none request.mode request.uid request.gid now
  let dirty := inserted.2.modify inserted.1 (·.setDirty)
  ({ vfs with
      table := (dirty.touchParent request.parent now).touch inserted.1 },
    { ino := inserted.1
      parent := request.parent
      name := request.name
      fullPath })

/-- The part of `create` under the write lock. -/
def createInsert (vfs : VirtualFs) (request : CreateRequest) (now : Time) :
    VirtualFs × NameCall :=
  match vfs.table.get request.parent with
  | none => vfs.fails (.table .enoent)
  | some parentEntry =>
      if parentEntry.kind ≠ .directory then vfs.fails (.table .enotdir)
      else if (vfs.table.lookupChild request.parent request.name).isSome then
        vfs.fails (.table .eexist)
      else
        let created := vfs.insertCreated request parentEntry now
        (created.1, .createInserted created.2)

def createCancel (vfs : VirtualFs) (file : CreatedFile) : VirtualFs :=
  { vfs with flushManager := vfs.flushManager.cancelDelete file.fullPath }

/-- The container of a new encrypted file is that of an empty one. -/
def createFinish (options : MountOptions) (vfs : VirtualFs)
    (file : CreatedFile) : VirtualFs × NameCall :=
  let sized :=
    if options.createMode = .encrypted then
      vfs.table.modify file.ino fun entry =>
        { entry with cipherSize := Encryption.Content.ciphertextSize 0 }
    else vfs.table
  let opened := { vfs with table := sized.bumpOpenHandles file.ino }
  if (opened.table.get file.ino).isNone then opened.fails (.table .enoent)
  else (opened, .returned (.ok ()))

/-- A step of the backing fails. -/
def createUndo (vfs : VirtualFs) (file : CreatedFile) (step : BackingStep) :
    VirtualFs :=
  if step.undone then { vfs with table := vfs.table.remove file.ino } else vfs

/-! ## Link -/

def linkSourced (vfs : VirtualFs) (request : LinkRequest) :
    VirtualFs × NameCall :=
  match vfs.linkSource request.ino with
  | .error errno => vfs.fails (.table errno)
  | .ok source => (vfs, .linkSourced request source)

/-- The destination is validated before a source is committed. -/
def linkPlace (vfs : VirtualFs) (request : LinkRequest)
    (source : Option LinkSource) : VirtualFs × NameCall :=
  match vfs.table.get request.newparent with
  | none => vfs.fails (.table .enoent)
  | some parentEntry =>
      if parentEntry.kind ≠ .directory then vfs.fails (.table .enotdir)
      else if
          (vfs.table.lookupChild request.newparent request.newname).isSome then
        vfs.fails (.table .eexist)
      else
        (vfs, .linkPlaced request
          (childPath parentEntry.fullPath request.newname) source)

def linkReady (request : LinkRequest) (newFullPath : Path)
    (source : LinkSource) : NameCall :=
  .linkReady
    { newparent := request.newparent
      newname := request.newname
      newFullPath
      source }

/-- The source is read again after its commit. -/
def linkResourced (vfs : VirtualFs) (request : LinkRequest)
    (newFullPath : Path) : VirtualFs × NameCall :=
  match vfs.linkSource request.ino with
  | .error errno => vfs.fails (.table errno)
  | .ok none => vfs.fails (.table .enotsup)
  | .ok (some source) => (vfs, linkReady request newFullPath source)

def linkFinish (vfs : VirtualFs) (info : LinkInfo) (now : Time) :
    VirtualFs × NameCall :=
  match vfs.linkInsert info now with
  | (some errno, after) => after.fails (.table errno)
  | (none, after) => (after, .returned (.ok ()))

/-! ## Rename -/

/-- An overlay leaves clean entries where they are. -/
def renameStart (options : MountOptions) (vfs : VirtualFs)
    (request : RenameRequest) : VirtualFs × NameCall :=
  if request.parent = request.newparent ∧ request.name = request.newname then
    (vfs, .returned (.ok ()))
  else if options.overlay &&
      (vfs.table.lookupChild request.parent request.name).any
        (!·.isDirty) then
    vfs.fails (.table .eperm)
  else (vfs, .renameAllowed request)

/-- The subtree of the source is loaded by then. -/
def renameGuard (options : MountOptions) (vfs : VirtualFs)
    (request : RenameRequest) : VirtualFs × NameCall :=
  if options.overlay &&
      (vfs.table.lookupChild request.parent request.name).any fun src =>
        src.kind = .directory && vfs.table.hasCleanDescendants src.inode then
    vfs.fails (.table .eperm)
  else (vfs, .renameLoaded request)

def renameCheck (vfs : VirtualFs) (request : RenameRequest) :
    VirtualFs × NameCall :=
  match vfs.table.renameValidate request with
  | .error errno => vfs.fails (.table errno)
  | .ok info => (vfs, .renameValidated request info)

/-- A source that has gone counts as success when the remote or the overlay
was changed; the directories are listed again. -/
def renameFinish (options : MountOptions) (vfs : VirtualFs)
    (request : RenameRequest) (info : RenameInfo) (mutated : Bool)
    (now : Time) : VirtualFs × NameCall :=
  match vfs.table.renameApplyLocal info request now with
  | .ok (replaced, table) =>
      ({ vfs with
          table
          staging := match replaced with
            | some ino => Function.update vfs.staging ino none
            | none => vfs.staging },
        .returned (.ok ()))
  | .error errno =>
      if errno = .enoent && (mutated || options.overlay) then
        let invalidated := vfs.table.invalidateChildren request.parent
        ({ vfs with
            table := if request.parent = request.newparent then invalidated
              else invalidated.invalidateChildren request.newparent },
          .returned (.ok ()))
      else vfs.fails (.table errno)

/-! ## One step -/

/-- The next step of the call, when what it asks for from outside succeeds. -/
def advance (options : MountOptions) (vfs : VirtualFs) (now : Time) :
    NameCall → Option (VirtualFs × NameCall)
  | .create request =>
      match options.refuses request.name with
      | some errno => some (vfs.fails errno)
      | none => some (vfs.createInsert request now)
  | .createInserted file =>
      some (vfs.createCancel file,
        .createBacking file options.createMode.backingSteps)
  | .createBacking file [] => some (vfs.createFinish options file)
  | .createBacking file (_ :: steps) => some (vfs, .createBacking file steps)
  | .link request =>
      match options.refuses request.newname with
      | some errno => some (vfs.fails errno)
      | none =>
          if options.overlay then some (vfs.fails (.table .enotsup))
          else some (vfs.linkSourced request)
  | .linkSourced request source => some (vfs.linkPlace request source)
  | .linkPlaced request newFullPath (some source) =>
      some (vfs, linkReady request newFullPath source)
  | .linkPlaced _ _ none => none
  | .linkCommitted request newFullPath =>
      some (vfs.linkResourced request newFullPath)
  | .linkReady info => some (vfs.linkRemote info, .linkSent info)
  | .linkSent info => some (vfs.linkCancel info, .linkCancelled info)
  | .linkCancelled info => some (vfs.linkFinish info now)
  | .rename request =>
      match options.refuses request.newname with
      | some errno => some (vfs.fails errno)
      | none => some (vfs.renameStart options request)
  | .renameAllowed request => some (vfs.renameGuard options request)
  | .renameLoaded request => some (vfs.renameCheck request)
  | .renameValidated request info =>
      some (vfs, if vfs.renameSameInode info request then .returned (.ok ())
        else .renameChecked request info)
  | .renameChecked request info =>
      if options.overlay then some (vfs, .renameSent request info false)
      else some (vfs.renameRemote info,
        .renameSent request info (!info.remoteOps.isEmpty))
  | .renameSent request info mutated =>
      some (vfs.renameCancel info, .renameCancelled request info mutated)
  | .renameCancelled request info mutated =>
      some (vfs.renameFinish options request info mutated now)
  | .returned _ => none

/-- What the next step asks for from outside fails: a listing, a step of the
backing, the streaming channel of a source or its commit, the Hub, or the disk
of an overlay. -/
def refuse (options : MountOptions) (vfs : VirtualFs) (errno : CallErrno) :
    NameCall → Option (VirtualFs × NameCall)
  | .createBacking file (step :: _) =>
      some ((vfs.createUndo file step).fails errno)
  | .create _ | .linkSourced _ _ | .linkPlaced _ _ none | .linkReady _
  | .rename _ | .renameAllowed _ | .renameLoaded _ | .renameChecked _ _ =>
      some (vfs.fails errno)
  | .renameSent _ _ _ =>
      if options.overlay then some (vfs.fails errno) else none
  | _ => none

end VirtualFs

/-- A call and the file system that it runs on. -/
structure NameRun where
  vfs : VirtualFs
  call : NameCall

/-- `advance` and `refused` are steps of the call, `committed` is the streaming
commit of the source of a link, the others are changes by other calls and by
the listings that are loaded. -/
inductive NameEvent where
  | advance (now : Time)
  | refused (errno : CallErrno)
  | committed (hash : Hash) (size generation : Nat) (now : Time)
  | operation (op : TableOp)
  | deletes (event : DeleteEvent)

namespace NameRun

def step (options : MountOptions) (run : NameRun) :
    NameEvent → Option NameRun
  | .advance now =>
      (run.vfs.advance options now run.call).map fun next => ⟨next.1, next.2⟩
  | .refused errno =>
      (run.vfs.refuse options errno run.call).map fun next => ⟨next.1, next.2⟩
  | .committed hash size generation now =>
      match run.call with
      | .linkPlaced request newFullPath none =>
          some
            { vfs :=
                { run.vfs with
                  table := run.vfs.table.modify request.ino
                    (·.applyCommit hash size generation now) }
              call := .linkCommitted request newFullPath }
      | _ => none
  | .operation op =>
      (run.vfs.table.applyOp op).map fun table =>
        { run with vfs := { run.vfs with table } }
  | .deletes event =>
      (run.vfs.flushManager.step event).map fun flushManager =>
        { run with vfs := { run.vfs with flushManager } }

end NameRun

end HfMount.Vfs
