import HfMount.Vfs.NameCalls
import HfMount.Vfs.OverlayTree

/-!
# rmdir and rename on an overlay, one step at a time

Both calls change the backing directory first and check the inode table again
before they change it.  In between listings may be loaded, and other calls may
create files and directories, which are in the table before they are on the
disk.
-/

namespace HfMount.Vfs

open SlashPath Inode Transition

/-- How far a call has come. -/
inductive OverlayCall where
  | rmdir (parent : Ino) (name : Name)
  | rmdirChecked (parent ino : Ino) (fullPath : Path)
  /-- The directory is off the disk. -/
  | rmdirRemoved (parent ino : Ino) (fullPath : Path)
  /-- The directory was not on the disk. -/
  | rmdirMissing (parent ino : Ino) (fullPath : Path)
  | rename (request : RenameRequest)
  /-- The source itself may be moved. -/
  | renameAllowed (request : RenameRequest)
  /-- The subtree of the source is loaded, and may be moved. -/
  | renameLoaded (request : RenameRequest)
  | renameValidated (request : RenameRequest) (info : RenameInfo)
  /-- The source is on the disk. -/
  | renameFound (request : RenameRequest) (info : RenameInfo)
  /-- The directories above the destination are on the disk. -/
  | renamePrepared (request : RenameRequest) (info : RenameInfo)
  | renameMoved (request : RenameRequest) (info : RenameInfo)
  | returned (result : Except CallErrno Unit)
  deriving DecidableEq

/-- A create or mkdir that is in the table and not yet on the disk. -/
structure PendingNode where
  ino : Ino
  kind : InodeKind
  fullPath : Path
  deriving DecidableEq

/-- How the disk part of a create or mkdir ends: it does what it can, it fails
before it does anything, or the mode of the new file cannot be set. -/
inductive DiskOutcome where
  | attempted
  | refused
  | modeRefused
  deriving DecidableEq

/-- What a listing changes in an entry that is there already. -/
structure ListedChange extends FieldChange where
  dirty : ∀ entry, (change entry).isDirty = entry.isDirty
  handles : ∀ entry, (change entry).eviction.openHandles =
    entry.eviction.openHandles

structure OverlayRun where
  table : InodeTable
  backing : OverlayBacking
  pending : List PendingNode
  call : OverlayCall

inductive OverlayStep where
  | advance (now : Time)
  /-- A listing or the disk fails, and so does the call. -/
  | refused (errno : CallErrno)
  /-- A listing is loaded: new entries, entries that were there, entries that
  it lacks, and what the backing has under a name. -/
  | listed (parent : Ino) (name : Name) (kind : InodeKind) (size : Nat)
      (mtime : Time) (xetHash : Option Hash) (mode uid gid : Nat) (now : Time)
  | updated (ino : Ino) (field : ListedChange)
  | stale (parent : Ino) (name : Name)
  | merged (parent : Ino) (name : Name) (size : Nat) (mtime : Time)
      (mode uid gid : Nat) (now : Time)
  /-- The table part of a create or mkdir. -/
  | inserted (parent : Ino) (name : Name) (kind : InodeKind)
      (mode uid gid : Nat) (now : Time)
  /-- The disk part. -/
  | finished (index : Nat) (outcome : DiskOutcome)

namespace OverlayRun

def fails (run : OverlayRun) (errno : CallErrno) : OverlayRun :=
  { run with call := .returned (.error errno) }

/-! ## rmdir -/

def rmdirCheck (run : OverlayRun) (parent : Ino) (name : Name) : OverlayRun :=
  match run.table.lookupChild parent name with
  | none => run.fails (.table .enoent)
  | some entry =>
      if entry.kind ≠ .directory then run.fails (.table .enotdir)
      else if !entry.isDirty then run.fails (.table .eperm)
      else if !entry.children.isEmpty then run.fails (.table .enotempty)
      else { run with call := .rmdirChecked parent entry.inode entry.fullPath }

def rmdirDisk (run : OverlayRun) (parent ino : Ino) (fullPath : Path) :
    OverlayRun :=
  match run.backing.removeDir fullPath with
  | (none, backing) =>
      { run with
        backing
        call := .rmdirRemoved parent ino fullPath }
  | (some .enoent, _) => { run with call := .rmdirMissing parent ino fullPath }
  | (some errno, _) => run.fails (.table errno)

def rmdirFinish (run : OverlayRun) (parent ino : Ino) (now : Time) :
    OverlayRun :=
  match run.table.get ino with
  | none => run.fails (.table .enoent)
  | some entry =>
      if !entry.children.isEmpty then run.fails (.table .enotempty)
      else
        { run with
          table := (run.table.remove ino).touchParent parent now
          call := .returned (.ok ()) }

/-! ## rename -/

def renameStart (run : OverlayRun) (request : RenameRequest) : OverlayRun :=
  if request.parent = request.newparent ∧ request.name = request.newname then
    { run with call := .returned (.ok ()) }
  else if (run.table.lookupChild request.parent request.name).any
      (!·.isDirty) then
    run.fails (.table .eperm)
  else { run with call := .renameAllowed request }

/-- A directory with something clean below it is not moved. -/
def renameGuard (run : OverlayRun) (request : RenameRequest) : OverlayRun :=
  if (run.table.lookupChild request.parent request.name).any fun src =>
      src.kind = .directory && run.table.hasCleanDescendants src.inode then
    run.fails (.table .eperm)
  else { run with call := .renameLoaded request }

def renameCheck (run : OverlayRun) (request : RenameRequest) : OverlayRun :=
  match run.table.renameValidate request with
  | .error errno => run.fails (.table errno)
  | .ok info => { run with call := .renameValidated request info }

/-- Another name of the same inode; otherwise the source has to be on the
disk. -/
def renameFind (run : OverlayRun) (request : RenameRequest)
    (info : RenameInfo) : OverlayRun :=
  if (run.table.lookupChild request.newparent request.newname).any
      (·.inode = info.ino) then
    { run with call := .returned (.ok ()) }
  else if run.backing.pathExists info.oldPath then
    { run with call := .renameFound request info }
  else run.fails (.table .eperm)

def renamePrepare (run : OverlayRun) (request : RenameRequest)
    (info : RenameInfo) : OverlayRun :=
  match run.backing.createParentDirs info.newFullPath with
  | (none, backing) =>
      { run with
        backing
        call := .renamePrepared request info }
  | (some errno, backing) => { run with backing }.fails (.table errno)

def renameDisk (run : OverlayRun) (request : RenameRequest)
    (info : RenameInfo) : OverlayRun :=
  match run.backing.rename info.oldPath info.newFullPath with
  | (none, backing) =>
      { run with
        backing
        call := .renameMoved request info }
  | (some errno, _) => run.fails (.table errno)

/-- A source that has gone counts as success; the directories are listed
again. -/
def renameFinish (run : OverlayRun) (request : RenameRequest)
    (info : RenameInfo) (now : Time) : OverlayRun :=
  match run.table.renameApplyLocal info request now with
  | .ok (_, table) =>
      { run with
        table
        call := .returned (.ok ()) }
  | .error .enoent =>
      let invalidated := run.table.invalidateChildren request.parent
      { run with
        table := if request.parent = request.newparent then invalidated
          else invalidated.invalidateChildren request.newparent
        call := .returned (.ok ()) }
  | .error errno => run.fails (.table errno)

def advance (run : OverlayRun) (now : Time) : Option OverlayRun :=
  match run.call with
  | .rmdir parent name => some (run.rmdirCheck parent name)
  | .rmdirChecked parent ino fullPath =>
      some (run.rmdirDisk parent ino fullPath)
  | .rmdirRemoved parent ino _ | .rmdirMissing parent ino _ =>
      some (run.rmdirFinish parent ino now)
  | .rename request => some (run.renameStart request)
  | .renameAllowed request => some (run.renameGuard request)
  | .renameLoaded request => some (run.renameCheck request)
  | .renameValidated request info => some (run.renameFind request info)
  | .renameFound request info => some (run.renamePrepare request info)
  | .renamePrepared request info => some (run.renameDisk request info)
  | .renameMoved request info => some (run.renameFinish request info now)
  | .returned _ => none

def refuse (run : OverlayRun) (errno : CallErrno) : Option OverlayRun :=
  match run.call with
  | .rmdirRemoved _ _ _ | .rmdirMissing _ _ _ | .renameMoved _ _
  | .returned _ => none
  | _ => some (run.fails errno)

/-! ## Listings and other calls -/

/-- What is on the disk goes first. -/
def localEntry (node : DiskNode) (size : Nat) (mtime : Time) (mode : Nat)
    (entry : InodeEntry) : InodeEntry :=
  { entry with
    size
    mtime
    mode
    xetHash := none
    childrenLoadedAt := if node.kind = .directory then none
      else entry.childrenLoadedAt }

/-- What is on the disk is dirty. -/
def overridden (node : DiskNode) (size : Nat) (mtime : Time) (mode : Nat)
    (entry : InodeEntry) : InodeEntry :=
  let shown := localEntry node size mtime mode entry
  if shown.isDirty then shown else shown.setDirty

/-- A new directory has nothing to load. -/
def createdEntry (kind : InodeKind) (now : Time) (entry : InodeEntry) :
    InodeEntry :=
  { entry.setDirty with
    childrenLoadedAt := if kind = .directory then some now
      else entry.childrenLoadedAt }

/-- An entry of another kind makes way. -/
def cleared (table : InodeTable) (parent : Ino) (name : Name)
    (kind : InodeKind) : InodeTable :=
  match table.lookupChild parent name with
  | some entry =>
      if entry.kind ≠ kind then table.remove entry.inode else table
  | none => table

/-- `merge_overlay_entries` for one name of a directory. -/
def merge (run : OverlayRun) (parent : Ino) (dirPath : Path) (name : Name)
    (node : DiskNode) (size : Nat) (mtime : Time) (mode uid gid : Nat)
    (now : Time) : InodeTable :=
  let inserted := (cleared run.table parent name node.kind).insert parent name
    (childPath dirPath name) node.kind size mtime none mode uid gid now
  inserted.2.modify inserted.1 (overridden node size mtime mode)

def insertLocal (run : OverlayRun) (parent : Ino) (parentEntry : InodeEntry)
    (name : Name) (kind : InodeKind) (mode uid gid : Nat) (now : Time) :
    OverlayRun :=
  let fullPath := childPath parentEntry.fullPath name
  let inserted := run.table.insert parent name fullPath kind 0 now none mode uid
    gid now
  let dirty := inserted.2.modify inserted.1 (createdEntry kind now)
  { run with
    table := dirty.touchParent parent now
    pending := run.pending ++ [⟨inserted.1, kind, fullPath⟩] }

/-- The directories above come first. -/
def makeNode (backing : OverlayBacking) (node : PendingNode) :
    Option Errno × OverlayBacking :=
  match backing.createParentDirs node.fullPath with
  | (some errno, above) => (some errno, above)
  | (none, above) =>
      if node.kind = .directory then above.createDir node.fullPath
      else above.openCreate node.fullPath

/-- A create ends with an open handle. -/
def opened (run : OverlayRun) (node : PendingNode) : InodeTable :=
  if node.kind = .file then run.table.bumpOpenHandles node.ino else run.table

/-- A failure takes the inode out of the table again. -/
def finish (run : OverlayRun) (node : PendingNode) (outcome : DiskOutcome) :
    OverlayRun :=
  let pending := run.pending.erase node
  let made := makeNode run.backing node
  match outcome with
  | .refused => { run with
      table := run.table.remove node.ino
      pending }
  | .modeRefused => { run with
      table := run.table.remove node.ino
      backing := made.2
      pending }
  | .attempted =>
      match made.1 with
      | none => { run with
          table := run.opened node
          backing := made.2
          pending }
      | some _ => { run with
          table := run.table.remove node.ino
          backing := made.2
          pending }

def step (run : OverlayRun) : OverlayStep → Option OverlayRun
  | .advance now => run.advance now
  | .refused errno => run.refuse errno
  | .listed parent name kind size mtime xetHash mode uid gid now =>
      match run.table.get parent with
      | some parentEntry =>
          if parentEntry.kind = .directory ∧ ValidName name then
            some { run with
              table := (run.table.insert parent name
                (childPath parentEntry.fullPath name) kind size mtime xetHash
                mode uid gid now).2 }
          else none
      | none => none
  | .updated ino field =>
      some { run with table := run.table.modify ino field.change }
  | .stale parent name =>
      match run.table.lookupChild parent name with
      | some entry =>
          if run.table.hasDirtyOrOpenDescendants entry.inode then none
          else some { run with table := run.table.remove entry.inode }
      | none => none
  | .merged parent name size mtime mode uid gid now =>
      match run.table.get parent with
      | some parentEntry =>
          match run.backing.dir.node (childPath parentEntry.fullPath name) with
          | some node =>
              if parentEntry.kind = .directory ∧ ValidName name ∧
                  node.kind ≠ .symlink then
                some { run with
                  table := run.merge parent parentEntry.fullPath name node size
                    mtime mode uid gid now }
              else none
          | none => none
      | none => none
  | .inserted parent name kind mode uid gid now =>
      match run.table.get parent with
      | some parentEntry =>
          if parentEntry.kind = .directory ∧ ValidName name ∧
              kind ≠ .symlink ∧ (run.table.lookupChild parent name).isNone then
            some (run.insertLocal parent parentEntry name kind mode uid gid now)
          else none
      | none => none
  | .finished index outcome =>
      run.pending[index]?.map fun node => run.finish node outcome

end OverlayRun

end HfMount.Vfs
