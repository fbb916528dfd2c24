import HfMount.Lib.Interleaving
import HfMount.Vfs.Remote
import HfMount.Vfs.Nodes

/-!
# Streaming channels

A streaming handle queues the written bytes in a bounded channel; a worker
drains it into the CAS writer.  A commit closes the channel with `Finish`,
waits for the upload, and adds the file on the Hub.
-/

namespace HfMount.Streaming

open SlashPath Inode Vfs Interleaving

/-- The handle that was allocated together with a channel names the channel. -/
abbrev FileHandle := Nat

/-- A watch channel for the outcome of a commit. -/
abbrev HookId := Nat

/-- A call in progress. -/
abbrev CallId := Nat

inductive Errno where
  | eio
  | einval
  | enoent
  | eexist
  | enotdir
  | eisdir
  | eperm
  | ebadf
  | enotsup
  | enospc
  | eacces
  | eagain
  deriving DecidableEq

inductive CommitState where
  | writing
  | deferred
  | committing
  | committed
  | failed (message : String)
  deriving DecidableEq

/-- What a commit tells those who wait for it. -/
abbrev CommitResult := Except Errno Unit

structure InodeSnapshot where
  xetHash : Option Hash
  size : Nat
  mtime : Time
  pendingDeletes : List Path
  existedBefore : Bool
  deriving DecidableEq

structure XetFileInfo where
  hash : Hash
  fileSize : Nat
  deriving DecidableEq

inductive WriteMsg where
  | data (bytes : Bytes)
  /-- The call that waits for the reply. -/
  | finish (caller : CallId)
  deriving DecidableEq

/-- The task that drains the channel: what the CAS writer has got so far, the
message being processed, and the reply that it left when it returned. -/
structure StreamingWorker where
  written : Bytes
  failed : Bool
  current : Option WriteMsg
  reply : Option (CallId × Except Errno XetFileInfo)

structure StreamingChannel where
  ino : Ino
  queue : List WriteMsg
  /-- Slots that are reserved and not yet used. -/
  permits : Nat
  bytesWritten : Nat
  /-- The error number of the error that the worker left. -/
  error : Option Errno
  state : CommitState
  pendingInfo : Option XetFileInfo
  openPid : Option Nat
  snapshot : InodeSnapshot
  dirtyGenerationAtOpen : Nat
  commitHook : Option HookId
  /-- A fulfilment holds the mutex of the hook. -/
  hookLocked : Bool
  worker : StreamingWorker
  /-- History: the data messages with the offsets they were written at. -/
  enqueued : List (Nat × Bytes)
  /-- History: an O_TRUNC open took the inode over before the commit. -/
  superseded : Bool

/-- The bound of the channel. -/
def channelCapacity : Nat := 8

namespace CommitState

/-- `terminal_result` of a channel in this state. -/
def terminalResult : CommitState → Option CommitResult
  | committed => some (.ok ())
  | failed _ => some (.error .eio)
  | _ => none

/-- `channel_is_terminal`. -/
def isTerminal (state : CommitState) : Bool := state.terminalResult.isSome

/-- `Writing` or `Deferred`: writes are accepted. -/
def isOpen : CommitState → Bool
  | writing | deferred => true
  | _ => false

@[simp] theorem isTerminal_committed : committed.isTerminal = true := rfl

@[simp] theorem isTerminal_failed (message : String) :
    (failed message).isTerminal = true := rfl

/-- `streaming_commit` closes an open channel. -/
def flip (state : CommitState) : CommitState :=
  if state.isOpen then .committing else state

/-- `defer_commit` demotes a channel that is still written. -/
def demote (state : CommitState) : CommitState :=
  if state = .writing then .deferred else state

@[simp] theorem isTerminal_flip (state : CommitState) :
    state.flip.isTerminal = state.isTerminal := by
  cases state <;> rfl

@[simp] theorem isTerminal_demote (state : CommitState) :
    state.demote.isTerminal = state.isTerminal := by
  cases state <;> rfl

@[simp] theorem isOpen_demote (state : CommitState) :
    state.demote.isOpen = state.isOpen := by
  cases state <;> rfl

@[simp] theorem isOpen_flip (state : CommitState) :
    state.flip.isOpen = false := by
  cases state <;> rfl

end CommitState

namespace StreamingChannel

/-- The channel of a handle that was never allocated. -/
def absent : StreamingChannel :=
  { ino := 0
    queue := []
    permits := 0
    bytesWritten := 0
    error := none
    state := .committed
    pendingInfo := none
    openPid := none
    snapshot :=
      { xetHash := none
        size := 0
        mtime := 0
        pendingDeletes := []
        existedBefore := true }
    dirtyGenerationAtOpen := 0
    commitHook := none
    hookLocked := false
    worker :=
      { written := []
        failed := false
        current := none
        reply := none }
    enqueued := []
    superseded := false }

/-- The channel that `setup_streaming_writer` builds. -/
def new (ino : Ino) (pid : Option Nat) (snapshot : InodeSnapshot)
    (generation : Nat) : StreamingChannel :=
  { absent with
    ino
    state := .writing
    openPid := pid
    snapshot
    dirtyGenerationAtOpen := generation }

def ownsGeneration (channel : StreamingChannel)
    (inodeDirtyGeneration : Nat) : Bool :=
  channel.dirtyGenerationAtOpen = inodeDirtyGeneration

def isTerminal (channel : StreamingChannel) : Bool :=
  channel.state.isTerminal

/-- The worker has returned, so the receiving half is gone. -/
def isClosed (channel : StreamingChannel) : Bool :=
  channel.worker.reply.isSome

/-- A slot can be reserved. -/
def hasRoom (channel : StreamingChannel) : Bool :=
  decide (channel.queue.length + channel.permits < channelCapacity)

end StreamingChannel

/-- A hook: the channel it was made for (history) and the published outcome. -/
structure CommitHook where
  channel : FileHandle
  value : Option CommitResult

/-- The state that the streaming calls share. -/
structure StreamingFs where
  inodes : InodeTable
  channels : FileHandle → StreamingChannel
  nextFileHandle : FileHandle
  /-- The streaming handles in `open_files`, in an arbitrary order. -/
  openFiles : List FileHandle
  /-- The release that holds the write lock of `open_files`, with the handle
  that it has removed. -/
  openFilesLock : Option (CallId × FileHandle)
  pendingCommits : Ino → Option HookId
  hooks : HookId → Option CommitHook
  nextHook : HookId
  /-- The per-inode locks of the staging coordinator. -/
  stagingLock : Ino → Option CallId
  /-- The batches that the Hub has applied, each with the channel that sent
  it. -/
  hub : List (FileHandle × List BatchOp)
  /-- History: the inodes whose last link was removed. -/
  unlinked : List Ino

namespace StreamingFs

def empty : StreamingFs :=
  { inodes := .new
    channels := fun _ => .absent
    nextFileHandle := 0
    openFiles := []
    openFilesLock := none
    pendingCommits := fun _ => none
    hooks := fun _ => none
    nextHook := 0
    stagingLock := fun _ => none
    hub := []
    unlinked := [] }

def updateChannel (fs : StreamingFs) (fh : FileHandle)
    (change : StreamingChannel → StreamingChannel) : StreamingFs :=
  { fs with
    channels := Function.update fs.channels fh (change (fs.channels fh)) }

@[simp] theorem channels_updateChannel_self (fs : StreamingFs)
    (fh : FileHandle) (change : StreamingChannel → StreamingChannel) :
    (fs.updateChannel fh change).channels fh = change (fs.channels fh) :=
  Function.update_self _ _ _

theorem channels_updateChannel_of_ne (fs : StreamingFs)
    {fh other : FileHandle} (change : StreamingChannel → StreamingChannel)
    (different : other ≠ fh) :
    (fs.updateChannel fh change).channels other = fs.channels other :=
  Function.update_of_ne different _ _

/-- What a change does not touch is as before in every channel. -/
theorem look_updateChannel {α : Type} (look : StreamingChannel → α)
    (fs : StreamingFs) (fh : FileHandle)
    {change : StreamingChannel → StreamingChannel}
    (same : look (change (fs.channels fh)) = look (fs.channels fh))
    (other : FileHandle) :
    look ((fs.updateChannel fh change).channels other) =
      look (fs.channels other) := by
  by_cases here : other = fh
  · subst here
    rw [channels_updateChannel_self, same]
  · rw [channels_updateChannel_of_ne _ _ here]

def setState (fs : StreamingFs) (fh : FileHandle) (state : CommitState) :
    StreamingFs :=
  fs.updateChannel fh fun channel => { channel with state }

end StreamingFs

/-- What the environment decides at a step: whether an external call fails,
the time, which of several handles a scan of the hash map meets first, and
whether two processes are the same. -/
structure Outcome where
  error : Option Errno
  now : Time
  first : FileHandle
  sameProcess : Bool

namespace Outcome

/-- The external call succeeds. -/
def success : Outcome :=
  { error := none
    now := 0
    first := 0
    sameProcess := true }

end Outcome

/-! ## Places -/

/-- Which call makes a step, with the inode and the handle that it is about to
install or has removed. -/
inductive Caller where
  | write (fh : FileHandle)
  | flush (fh : FileHandle)
  | link (ino : Ino)
  | release (fh : FileHandle)
  | openTruncate (ino : Ino)
  | opened (ino : Ino) (fh : FileHandle)
  | create
  | creating (ino : Ino)
  | created (ino : Ino) (fh : FileHandle)
  | unlink
  | shutdown
  deriving DecidableEq

/-- The steps, under the names of what they do. -/
inductive Place where
  | installHook (fh : FileHandle)
  | checkTerminal (fh : FileHandle)
  | takeHook (fh : FileHandle)
  | removePending (fh : FileHandle) (hook : HookId)
  | cloneReceiver (ino : Ino)
  | awaitHook (hook : HookId)
  | lockStaging (ino : Ino)
  | unlockStaging (ino : Ino)
  | findHandle (fh : FileHandle)
  | checkError (fh : FileHandle)
  | checkState (fh : FileHandle)
  | checkOffset (fh : FileHandle)
  | reserveSlot (fh : FileHandle)
  | enqueue (fh : FileHandle)
  | advanceCounter (fh : FileHandle)
  | setSize (fh : FileHandle)
  | checkProcess (fh : FileHandle)
  | checkCounter (fh : FileHandle)
  | demote (fh : FileHandle)
  | skipCommit (fh : FileHandle)
  | flipCommitting (fh : FileHandle)
  | takePendingInfo (fh : FileHandle)
  | sendFinish (fh : FileHandle)
  | checkClosed (fh : FileHandle)
  | awaitReply (fh : FileHandle)
  | readPath (fh : FileHandle)
  | batchOperations (fh : FileHandle)
  | parkInfo (fh : FileHandle)
  | applyCommit (fh : FileHandle)
  | markCommitted (fh : FileHandle)
  | setCommitted (fh : FileHandle)
  | setFailed (fh : FileHandle)
  | removeHandle (fh : FileHandle)
  | unlockFiles
  | needsCommit (fh : FileHandle)
  | checkRetry (fh : FileHandle)
  | revertInode (fh : FileHandle)
  | dropHandle (ino : Ino)
  | reapInode (ino : Ino)
  | checkInode (ino : Ino)
  | readGeneration (ino : Ino)
  | scanHandles (ino : Ino)
  | takeSnapshot (ino : Ino)
  | createWriter (ino : Ino)
  | supersede (fh : FileHandle)
  | markDirty (fh : FileHandle)
  | bumpHandles (ino : Ino)
  | insertHandle (fh : FileHandle)
  | loadChildren
  | createInode
  | dropInode (ino : Ino)
  | linkSource (ino : Ino)
  | lookupTarget
  | recheckTarget
  | remoteDelete (ino : Ino)
  | unlinkLocal (ino : Ino)
  deriving DecidableEq

structure Label where
  caller : Caller
  place : Place
  deriving DecidableEq

abbrev Prog := Program Label Outcome StreamingFs

end HfMount.Streaming
