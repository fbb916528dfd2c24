import HfMount.Flush.StagedFile
import HfMount.Lib.PathStore
import HfMount.Vfs.References
import HfMount.Vfs.TableRuns

/-!
# The overlay

In overlay mode the content of local files is in a directory of its own, under
the path that the file has in the mount.  Handles and inodes without links go
by inode number, so the last close of an unlinked file removes whatever is at
the path that it had.  The calls run one after the other, and directories stay
where they are.
-/

namespace HfMount.Vfs

open SlashPath Inode Transition Flush

/-- A handle; a writable one has a backing file open. -/
structure OpenFile where
  ino : Ino
  backing : Option Nat
  deriving DecidableEq

structure Overlay where
  table : InodeTable
  backing : PathStore Path Bytes
  handles : List OpenFile
  /-- What a file that was opened for writing holds by its opens and writes. -/
  written : Ino → Option Bytes

inductive OverlayEvent where
  /-- A listing or a lookup brings an entry in. -/
  | list (parent : Ino) (name : Name) (kind : InodeKind) (size : Nat)
      (mtime : Time) (xetHash : Option Hash) (mode uid gid : Nat) (now : Time)
  | create (parent : Ino) (name : Name) (mode uid gid : Nat) (now : Time)
  | openWrite (ino : Ino) (truncate : Bool) (now : Time)
  | openReadonly (ino : Ino)
  | write (handle : OpenFile) (offset : Nat) (data : Bytes)
  | unlink (parent : Ino) (name : Name) (now : Time)
  | rename (request : RenameRequest) (now : Time)
  | release (handle : OpenFile)

namespace Overlay

/-- Entries that are not dirty are on the remote, which the overlay leaves as
it is. -/
def isOverlayImmutable (entry : InodeEntry) : Bool := !entry.isDirty

/-- `merge_overlay_entries` for one file: what is there locally goes first. -/
def mergeEntry (localSize : Nat) (entry : InodeEntry) : InodeEntry :=
  let localEntry := { entry with
    size := localSize
    xetHash := none }
  if entry.isDirty then localEntry else localEntry.setDirty

def list (state : Overlay) (parent : Ino) (name : Name) (fullPath : Path)
    (kind : InodeKind) (size : Nat) (mtime : Time) (xetHash : Option Hash)
    (mode uid gid : Nat) (now : Time) : Overlay :=
  let inserted := state.table.insert parent name fullPath kind size mtime
    xetHash mode uid gid now
  { state with
    table := match kind, state.backing.file fullPath with
      | .file, some file => inserted.2.modify inserted.1
          (mergeEntry (state.backing.content file).length)
      | _, _ => inserted.2 }

def create (state : Overlay) (parent : Ino) (name : Name) (fullPath : Path)
    (mode uid gid : Nat) (now : Time) : Overlay :=
  let created := References.createEntry state.table parent name fullPath mode
    uid gid now
  let opened := state.backing.create fullPath []
  { table := created.2.bumpOpenHandles created.1
    backing := opened.2
    handles := ⟨created.1, some opened.1⟩ :: state.handles
    written := Function.update state.written created.1 (some []) }

/-- The local file is taken over as it is, or opened empty. -/
def openLocal (backing : PathStore Path Bytes) (path : Path) (reuse : Bool) :
    Nat × PathStore Path Bytes :=
  match backing.file path, reuse with
  | some file, true => (file, backing)
  | _, _ => backing.create path []

/-- The entry after an open for writing; `reused` says whether the local file
was taken over. -/
def openedEntry (reused truncate : Bool) (now : Time) (entry : InodeEntry) :
    InodeEntry :=
  { entry.setDirty with
    stagingIsCurrent := reused && entry.stagingIsCurrent
    size := if truncate then 0 else entry.size
    mtime := if truncate then now else entry.mtime
    ctime := if truncate then now else entry.ctime }

/-- `open_advanced_write`; a local file is taken over when it is current. -/
def openWrite (state : Overlay) (ino : Ino) (entry : InodeEntry)
    (truncate : Bool) (now : Time) : Option Overlay :=
  let localExists := (state.backing.file entry.fullPath).isSome
  if isOverlayImmutable entry && !localExists then none
  else
    let canReuse := !truncate && (entry.isDirty || entry.stagingIsCurrent)
    let opened := openLocal state.backing entry.fullPath canReuse
    some
      { table := (state.table.modify ino
          (openedEntry (canReuse && localExists) truncate now)).bumpOpenHandles
            ino
        backing := opened.2
        handles := ⟨ino, some opened.1⟩ :: state.handles
        written := Function.update state.written ino
          (some (if truncate then []
            else (state.written ino).getD (opened.2.content opened.1))) }

/-- `open_readonly`; a dirty file has to be there. -/
def openReadonly (state : Overlay) (ino : Ino) (entry : InodeEntry) :
    Option Overlay :=
  if entry.isDirty && (state.backing.file entry.fullPath).isNone then none
  else some { state with
    table := state.table.bumpOpenHandles ino
    handles := ⟨ino, none⟩ :: state.handles }

def write (state : Overlay) (handle : OpenFile) (file : Nat) (offset : Nat)
    (data : Bytes) : Overlay :=
  { state with
    table := state.table.modify handle.ino fun entry =>
      { entry with size := max entry.size (offset + data.length) }.setDirty
    backing := state.backing.write file (writeAt · offset data)
    written := Function.update state.written handle.ino
      ((state.written handle.ino).map (writeAt · offset data)) }

/-- The backing file goes with the last link, unless a handle is open. -/
def unlink (state : Overlay) (parent : Ino) (name : Name) (entry : InodeEntry)
    (now : Time) : Overlay :=
  let unlinked := state.table.unlinkOne parent name now
  let touched := unlinked.2.touchParent parent now
  if unlinked.1.getD false && !touched.hasOpenHandles entry.inode then
    { state with
      table := touched.removeOrphan entry.inode
      backing := state.backing.remove entry.fullPath }
  else { state with table := touched }

/-- The backing file moves before the entry. -/
def rename (state : Overlay) (request : RenameRequest) (now : Time) :
    Option Overlay :=
  match state.table.renameValidate request with
  | .error _ => none
  | .ok info =>
      if (state.table.lookupChild request.newparent request.newname).any
          (·.inode = info.ino) then some state
      else if (state.backing.file info.oldPath).isNone then none
      else (state.table.applyOp (.renameApplyLocal info request now)).map
        fun table => { state with
          table
          backing := state.backing.rename info.oldPath info.newFullPath }

def release (state : Overlay) (handle : OpenFile) : Overlay :=
  let closed := { state with
    table := state.table.dropOpenHandles handle.ino
    handles := state.handles.erase handle }
  if closed.table.hasOpenHandles handle.ino then closed
  else
    let reaped := closed.table.reapOnLastRelease true handle.ino
    { closed with
      table := reaped.table
      backing := match reaped.overlayPath with
        | some path => state.backing.remove path
        | none => state.backing }

/-- A call that the mount refuses is no step. -/
def step (state : Overlay) : OverlayEvent → Option Overlay
  | .list parent name kind size mtime xetHash mode uid gid now =>
      match state.table.get parent with
      | none => none
      | some parentEntry =>
          if parentEntry.kind = .directory ∧ ValidName name then
            some (state.list parent name (childPath parentEntry.fullPath name)
              kind size mtime xetHash mode uid gid now)
          else none
  | .create parent name mode uid gid now =>
      match state.table.get parent with
      | none => none
      | some parentEntry =>
          if parentEntry.kind = .directory ∧ ValidName name ∧
              (state.table.lookupChild parent name).isNone then
            some (state.create parent name
              (childPath parentEntry.fullPath name) mode uid gid now)
          else none
  | .openWrite ino truncate now =>
      match state.table.get ino with
      | none => none
      | some entry =>
          if entry.kind = .file then state.openWrite ino entry truncate now
          else none
  | .openReadonly ino =>
      match state.table.get ino with
      | none => none
      | some entry =>
          if entry.kind = .file then state.openReadonly ino entry else none
  | .write handle offset data =>
      if handle ∈ state.handles then
        handle.backing.map fun file => state.write handle file offset data
      else none
  | .unlink parent name now =>
      match state.table.lookupChild parent name with
      | none => none
      | some entry =>
          if entry.kind = .directory ∨ isOverlayImmutable entry then none
          else some (state.unlink parent name entry now)
  | .rename request now =>
      if request.parent = request.newparent ∧
          request.name = request.newname then some state
      else match state.table.lookupChild request.parent request.name with
        | none => none
        | some source =>
            if source.kind = .directory ∨ isOverlayImmutable source then none
            else state.rename request now
  | .release handle =>
      if handle ∈ state.handles then some (state.release handle) else none

/-! ## What a last close may remove -/

/-- No inode without links still has the path. -/
def Unclaimed (state : Overlay) (path : Path) : Prop :=
  ∀ entry ∈ state.table.values, entry.nlink = 0 → entry.fullPath ≠ path

instance (state : Overlay) (path : Path) : Decidable (state.Unclaimed path) :=
  inferInstanceAs (Decidable (∀ entry ∈ state.table.values, _))

/-- While an unlinked file is open, nothing is created, opened for writing or
renamed at the path that it had, nor moved there, and no rename replaces a file
that is open. -/
def Apart (state : Overlay) : OverlayEvent → Prop
  | .create parent name _ _ _ _ =>
      ∀ entry ∈ state.table.get parent,
        state.Unclaimed (childPath entry.fullPath name)
  | .openWrite ino _ _ =>
      ∀ entry ∈ state.table.get ino, 0 < entry.nlink →
        state.Unclaimed entry.fullPath
  | .rename request _ =>
      (request.parent = request.newparent ∧ request.name = request.newname) ∨
        (∀ entry ∈ state.table.lookupChild request.parent request.name,
          state.Unclaimed entry.fullPath) ∧
        (∀ entry ∈ state.table.get request.newparent,
          state.Unclaimed (childPath entry.fullPath request.newname)) ∧
        ∀ entry ∈ state.table.lookupChild request.newparent request.newname,
          entry.hasOpenHandles = false
  | _ => True

instance (state : Overlay) (event : OverlayEvent) :
    Decidable (state.Apart event) := by
  unfold Apart
  split <;> infer_instance

/-- A mount before the first open, with any entries and any local files. -/
structure Initial (state : Overlay) : Prop where
  order : state.table.InOrder
  closed : ∀ ino entry, state.table.get ino = some entry →
    entry.eviction.openHandles = 0
  linked : ∀ ino entry, state.table.get ino = some entry → 0 < entry.nlink
  noHandles : state.handles = []
  unwritten : ∀ ino, state.written ino = none
  separate : state.backing.Separate

/-- The backing directory has every live file that was created or opened for
writing, with what was written through its handles. -/
def KeepsWritten (state : Overlay) : Prop :=
  ∀ ino entry content, state.table.get ino = some entry →
    entry.kind = .file → 0 < entry.nlink → entry.isDirty = true →
    state.written ino = some content → ∃ file,
      state.backing.file entry.fullPath = some file ∧
        state.backing.content file = content

end Overlay

end HfMount.Vfs
