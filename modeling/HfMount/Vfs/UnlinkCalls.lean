import HfMount.Inode.LastRelease
import HfMount.Lib.Transition
import HfMount.Vfs.TableRuns

/-!
# Unlinks that run at the same time as other calls

An unlink reads the inode under a name, sends or queues the delete of its path,
and removes the name in the end.  No lock is held over the three in
advanced-writes mode; in streaming mode the inode is locked, which stops other
unlinks of it but no rename.
-/

namespace HfMount.Vfs

open SlashPath Inode Transition

/-- What an unlink has read about the inode under the name. -/
structure Examined where
  parent : Ino
  name : Name
  ino : Ino
  fullPath : Path
  needsRemoteDelete : Bool
  dirty : Bool
  deriving DecidableEq

inductive UnlinkCall where
  | started (parent : Ino) (name : Name)
  | locking (parent : Ino) (name : Name) (target : Ino)
  | locked (parent : Ino) (name : Name) (target : Ino)
  | examined (info : Examined)
  | allowed (info : Examined)
  /-- The delete is sent or queued, where the remote needs one. -/
  | deleted (info : Examined)
  | returned (errno : Option Errno)
  deriving DecidableEq

namespace UnlinkCall

/-- The local removal is still to come. -/
def pending : UnlinkCall → Option Examined
  | .examined info | .allowed info | .deleted info => some info
  | _ => none

/-- The remote delete is still to come. -/
def unsent : UnlinkCall → Option Examined
  | .examined info | .allowed info => some info
  | _ => none

/-- The inode whose lock a streaming unlink holds. -/
def locks : UnlinkCall → Option Ino
  | .locked _ _ target => some target
  | .examined info | .allowed info | .deleted info => some info.ino
  | _ => none

end UnlinkCall

/-- A change of fields that are no index and no count of handles. -/
structure AttrChange extends FieldChange where
  openHandles : ∀ entry : InodeEntry,
    (change entry).eviction.openHandles = entry.eviction.openHandles

/-- The calls have the numbers of their places in the list. -/
structure Unlinks where
  advancedWrites : Bool
  overlay : Bool
  table : InodeTable
  calls : List UnlinkCall
  /-- The call that holds the lock of an inode. -/
  holder : Ino → Option Nat
  /-- Paths whose remote delete was sent or queued. -/
  deletes : List Path
  /-- Releases that have dropped their handle and look for others. -/
  closing : List Ino
  /-- Releases that have found no other handle. -/
  reaping : List Ino

inductive UnlinkEvent where
  | unlink (parent : Ino) (name : Name)
  /-- The next step of a call. -/
  | advance (id : Nat) (now : Time)
  /-- The Hub refuses the delete of a streaming unlink. -/
  | refused (id : Nat) (errno : Errno)
  | create (parent : Ino) (name : Name) (fullPath : Path) (kind : InodeKind)
      (size : Nat) (mtime : Time) (xetHash : Option Hash) (mode uid gid : Nat)
      (now : Time)
  | rename (info : RenameInfo) (request : RenameRequest) (now : Time)
  | update (ino : Ino) (attr : AttrChange)
  | openFile (ino : Ino)
  | close (ino : Ino)
  | checkLast (ino : Ino)
  | reap (ino : Ino)

namespace Unlinks

def new (advancedWrites overlay : Bool) : Unlinks :=
  { advancedWrites
    overlay
    table := .new
    calls := []
    holder := fun _ => none
    deletes := []
    closing := []
    reaping := [] }

def setCall (state : Unlinks) (id : Nat) (call : UnlinkCall) : Unlinks :=
  { state with calls := state.calls.set id call }

/-- The guard of the per-inode lock goes out of scope. -/
def unlock (state : Unlinks) (id : Nat) : Unlinks :=
  { state with
    holder := fun ino =>
      if state.holder ino = some id then none else state.holder ino }

def finish (state : Unlinks) (id : Nat) (errno : Option Errno) : Unlinks :=
  (state.unlock id).setCall id (.returned errno)

/-- Overlay mode cannot hide what the remote has. -/
def isOverlayImmutable (state : Unlinks) (entry : InodeEntry) : Bool :=
  state.overlay && !entry.isDirty

/-- The last link goes, and the file is on the hub. -/
def examine (state : Unlinks) (parent : Ino) (name : Name)
    (entry : InodeEntry) : Examined :=
  { parent
    name
    ino := entry.inode
    fullPath := entry.fullPath
    needsRemoteDelete :=
      !state.overlay && entry.xetHash.isSome && decide (entry.nlink ≤ 1)
    dirty := entry.isDirty }

/-- The body of the loop after the lock; a streaming unlink starts over when
the name has passed to another inode. -/
def snapshot (state : Unlinks) (id : Nat) (parent : Ino) (name : Name)
    (target : Option Ino) : Unlinks :=
  match state.table.lookupChild parent name with
  | none => state.finish id (some .enoent)
  | some entry =>
      if entry.kind = .directory then state.finish id (some .eisdir)
      else if target.any (· ≠ entry.inode) then
        (state.unlock id).setCall id (.started parent name)
      else if state.isOverlayImmutable entry then
        state.finish id (some .eperm)
      else state.setCall id (.examined (state.examine parent name entry))

/-- The inode that a streaming unlink locks. -/
def lookTarget (state : Unlinks) (id : Nat) (parent : Ino) (name : Name) :
    Unlinks :=
  match state.table.lookupChild parent name with
  | none => state.finish id (some .enoent)
  | some entry =>
      if entry.kind = .directory then state.finish id (some .eisdir)
      else state.setCall id (.locking parent name entry.inode)

/-- The name goes, and with it the inode when that was the last link and
nothing has it open. -/
def unlinkLocal (table : InodeTable) (info : Examined) (now : Time) :
    InodeTable :=
  let unlinked := table.unlinkOne info.parent info.name now
  let touched := unlinked.2.touchParent info.parent now
  if unlinked.1.getD false && !touched.hasOpenHandles info.ino then
    touched.removeOrphan info.ino
  else touched

def advance (state : Unlinks) (id : Nat) (now : Time) :
    UnlinkCall → Option Unlinks
  | .started parent name =>
      some (if state.advancedWrites then state.snapshot id parent name none
        else state.lookTarget id parent name)
  | .locking parent name target =>
      if state.holder target = none then
        some ({ state with
          holder := Function.update state.holder target (some id) }.setCall id
            (.locked parent name target))
      else none
  | .locked parent name target =>
      some (state.snapshot id parent name (some target))
  | .examined info =>
      some (if !state.advancedWrites && info.dirty &&
          state.table.hasOpenHandles info.ino then
        state.finish id (some .eperm)
      else state.setCall id (.allowed info))
  | .allowed info =>
      some ({ state with
        deletes := if info.needsRemoteDelete then
            state.deletes ++ [info.fullPath]
          else state.deletes }.setCall id (.deleted info))
  | .deleted info =>
      some ({ state with
        table := unlinkLocal state.table info now }.finish id none)
  | .returned _ => none

def refuse (state : Unlinks) (id : Nat) (errno : Errno) :
    UnlinkCall → Option Unlinks
  | .allowed info =>
      if !state.advancedWrites && info.needsRemoteDelete then
        some (state.finish id (some errno))
      else none
  | _ => none

/-- The first lock of a release after the handle is gone. -/
def checkLast (state : Unlinks) (ino : Ino) : Unlinks :=
  { state with
    closing := state.closing.erase ino
    reaping := if state.table.hasOpenHandles ino then state.reaping
      else ino :: state.reaping }

def step (state : Unlinks) : UnlinkEvent → Option Unlinks
  | .unlink parent name =>
      some { state with calls := state.calls ++ [.started parent name] }
  | .advance id now => state.calls[id]?.bind (state.advance id now)
  | .refused id errno => state.calls[id]?.bind (state.refuse id errno)
  | .create parent name fullPath kind size mtime xetHash mode uid gid now =>
      (state.table.applyOp (.insert parent name fullPath kind size mtime
        xetHash mode uid gid now)).map fun table => { state with table }
  | .rename info request now =>
      (state.table.applyOp (.renameApplyLocal info request now)).map
        fun table => { state with table }
  | .update ino attr =>
      some { state with table := state.table.modify ino attr.change }
  | .openFile ino =>
      some { state with table := state.table.bumpOpenHandles ino }
  | .close ino =>
      if state.table.hasOpenHandles ino then
        some { state with
          table := state.table.dropOpenHandles ino
          closing := ino :: state.closing }
      else none
  | .checkLast ino =>
      if ino ∈ state.closing then some (state.checkLast ino) else none
  | .reap ino =>
      if ino ∈ state.reaping then
        some { state with
          table := (state.table.reapOnLastRelease state.overlay ino).table
          reaping := state.reaping.erase ino }
      else none

/-! ## Calls that are left alone -/

/-- No other pending unlink is for the name.  In streaming mode the lock of the
inode sees to that. -/
def SoleUnlink (state : Unlinks) (id : Nat) (info : Examined) : Prop :=
  state.advancedWrites = true →
    ∀ other < state.calls.length, other ≠ id →
      ∀ call ∈ state.calls[other]?, ∀ pending ∈ call.pending,
        ¬ (pending.parent = info.parent ∧ pending.name = info.name)

/-- The rename takes the name neither as its source nor as its destination,
and while the delete is still to come it moves nothing at or above the path. -/
def RenameApart (state : Unlinks) (info : RenameInfo)
    (request : RenameRequest) : Prop :=
  ∀ call ∈ state.calls,
    (∀ pending ∈ call.pending,
      ¬ (request.parent = pending.parent ∧ request.name = pending.name) ∧
      ¬ (request.newparent = pending.parent ∧
        request.newname = pending.name)) ∧
    ∀ pending ∈ call.unsent, ∀ source ∈ state.table.get info.ino,
      ¬ Within source.fullPath pending.fullPath

/-- Between the examination of an unlink and its local removal no other step
gives the name or the path to another inode, or evicts the inode; creates and
renames still fit the table. -/
def LeavesExamined (state : Unlinks) : UnlinkEvent → Prop
  | .advance id _ => ∀ call ∈ state.calls[id]?, ∀ info ∈ call.pending,
      call = .deleted info → state.SoleUnlink id info
  | .create parent name fullPath kind size mtime xetHash mode uid gid now =>
      state.table.Fits (.insert parent name fullPath kind size mtime xetHash
        mode uid gid now)
  | .rename info request now =>
      state.table.Fits (.renameApplyLocal info request now) ∧
        state.RenameApart info request
  | .reap ino =>
      (∃ entry ∈ state.table.get ino, entry.eviction.evictPending = true) →
        ∀ call ∈ state.calls, ∀ info ∈ call.pending, info.ino ≠ ino
  | _ => True

instance decidableSoleUnlink (state : Unlinks) (id : Nat) (info : Examined) :
    Decidable (state.SoleUnlink id info) := by
  unfold SoleUnlink
  infer_instance

instance decidableRenameApart (state : Unlinks) (info : RenameInfo)
    (request : RenameRequest) : Decidable (state.RenameApart info request) := by
  unfold RenameApart
  infer_instance

instance decidableLeavesExamined (state : Unlinks) (event : UnlinkEvent) :
    Decidable (state.LeavesExamined event) := by
  cases event <;> unfold LeavesExamined <;> infer_instance

end Unlinks

end HfMount.Vfs
