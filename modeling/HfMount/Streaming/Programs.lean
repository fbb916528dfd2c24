import HfMount.Streaming.Channel

/-!
# The streaming calls

Every call is a program of atomic steps: one step takes one lock, or waits for
one external call.  The shared parts are programs of their own, which a call
runs under its name.
-/

namespace HfMount.Streaming

open SlashPath Inode Vfs Interleaving Program

/-! ## Commit hooks -/

namespace StreamingFs

/-- A channel without a hook gets one; the inode's waiters are pointed to it
unless an older hook is registered. -/
def putHook (fs : StreamingFs) (ino : Ino) (fh : FileHandle) : StreamingFs :=
  match (fs.channels fh).commitHook with
  | some _ => fs
  | none =>
      { fs.updateChannel fh fun channel =>
          { channel with commitHook := some fs.nextHook } with
        hooks := Function.update fs.hooks fs.nextHook
          (some { channel := fh, value := none })
        nextHook := fs.nextHook + 1
        pendingCommits :=
          if (fs.pendingCommits ino).isNone then
            Function.update fs.pendingCommits ino (some fs.nextHook)
          else fs.pendingCommits }

/-- The sender is taken and the outcome sent; the mutex of the hook stays
locked until the map is cleaned up. -/
def takeHook (fs : StreamingFs) (fh : FileHandle) (result : CommitResult) :
    StreamingFs × Option HookId :=
  match (fs.channels fh).commitHook with
  | none => (fs, none)
  | some hook =>
      ({ fs.updateChannel fh fun channel =>
            { channel with commitHook := none, hookLocked := true } with
          hooks := Function.update fs.hooks hook
            (some { channel := fh, value := some result }) },
        some hook)

/-- Only the entry of this very watch channel is removed. -/
def removePending (fs : StreamingFs) (ino : Ino) (fh : FileHandle)
    (hook : HookId) : StreamingFs :=
  { fs.updateChannel fh fun channel =>
      { channel with hookLocked := false } with
    pendingCommits :=
      if fs.pendingCommits ino = some hook then
        Function.update fs.pendingCommits ino none
      else fs.pendingCommits }

def published (fs : StreamingFs) (hook : HookId) : Bool :=
  (fs.hooks hook).any (·.value.isSome)

/-- Some channel still holds the sender. -/
def senderAlive (fs : StreamingFs) (hook : HookId) : Bool :=
  (List.range fs.nextFileHandle).any fun fh =>
    (fs.channels fh).commitHook = some hook

end StreamingFs

def fulfillCommitHook (caller : Caller) (ino : Ino) (fh : FileHandle)
    (result : CommitResult) : Prog Unit := do
  let taken ← perform ⟨caller, .takeHook fh⟩
    (fun fs => !(fs.channels fh).hookLocked) fun _ fs => fs.takeHook fh result
  match taken with
  | some hook =>
      modify ⟨caller, .removePending fh hook⟩ (·.removePending ino fh hook)
  | none => pure ()

def installCommitHook (caller : Caller) (ino : Ino) (fh : FileHandle) :
    Prog Unit := do
  perform ⟨caller, .installHook fh⟩ (fun fs => !(fs.channels fh).hookLocked)
    fun _ fs => (fs.putHook ino fh, ())
  let outcome ← read ⟨caller, .checkTerminal fh⟩ fun fs =>
    (fs.channels fh).state.terminalResult
  match outcome with
  | some result => fulfillCommitHook caller ino fh result
  | none => pure ()

/-- A failed commit is no error for the caller; a sender that is dropped
without an outcome is. -/
def awaitPendingCommit (caller : Caller) (ino : Ino) :
    Prog (Except Errno Unit) := do
  let receiver ← read ⟨caller, .cloneReceiver ino⟩ (·.pendingCommits ino)
  match receiver with
  | none => pure (.ok ())
  | some hook =>
      perform ⟨caller, .awaitHook hook⟩
        (fun fs => fs.published hook || !fs.senderAlive hook)
        fun _ fs => (fs, if fs.published hook then .ok () else .error .eio)

/-! ## Locks -/

def lockStaging (me : CallId) (caller : Caller) (ino : Ino) : Prog Unit :=
  perform ⟨caller, .lockStaging ino⟩ (fun fs => (fs.stagingLock ino).isNone)
    fun _ fs =>
      ({ fs with
          stagingLock := Function.update fs.stagingLock ino (some me) }, ())

def unlockStaging (caller : Caller) (ino : Ino) : Prog Unit :=
  modify ⟨caller, .unlockStaging ino⟩ fun fs =>
    { fs with stagingLock := Function.update fs.stagingLock ino none }

/-! ## Commits -/

namespace StreamingFs

/-- Unlinked files and superseded channels are not committed. -/
def skipCommit (fs : StreamingFs) (ino : Ino) (fh : FileHandle) : Bool :=
  match fs.inodes.get ino with
  | some entry =>
      entry.nlink == 0 ||
        !(fs.channels fh).ownsGeneration entry.dirtyGeneration
  | none => true

def takePendingInfo (fs : StreamingFs) (fh : FileHandle) :
    StreamingFs × Option XetFileInfo :=
  (fs.updateChannel fh fun channel => { channel with pendingInfo := none },
    (fs.channels fh).pendingInfo)

/-- The flag says whether the worker was there to receive it. -/
def sendFinish (fs : StreamingFs) (me : CallId) (fh : FileHandle) :
    StreamingFs × Bool :=
  if (fs.channels fh).isClosed then (fs, false)
  else
    (fs.updateChannel fh fun channel =>
      { channel with queue := channel.queue ++ [.finish me] }, true)

/-- The reply of the worker, or the error of a reply channel that was
dropped. -/
def finishReply (fs : StreamingFs) (me : CallId) (fh : FileHandle) :
    Except Errno XetFileInfo :=
  match (fs.channels fh).worker.reply with
  | some (caller, result) => if caller = me then result else .error .eio
  | none => .error .eio

/-- The Hub applies the batch, or the call fails. -/
def batchOperations (fs : StreamingFs) (fh : FileHandle) (ops : List BatchOp)
    (outcome : Outcome) : StreamingFs × Option Errno :=
  match outcome.error with
  | some errno => (fs, some errno)
  | none => ({ fs with hub := fs.hub ++ [(fh, ops)] }, none)

def applyCommit (fs : StreamingFs) (ino : Ino) (fh : FileHandle)
    (info : XetFileInfo) (now : Time) : StreamingFs :=
  { fs with
    inodes := fs.inodes.modify ino fun entry =>
      entry.applyCommit info.hash info.fileSize
        (fs.channels fh).dirtyGenerationAtOpen now }

def revertInode (fs : StreamingFs) (ino : Ino) (snapshot : InodeSnapshot) :
    StreamingFs :=
  if snapshot.existedBefore then
    { fs with
      inodes := fs.inodes.modify ino fun entry =>
        { entry with
          xetHash := snapshot.xetHash
          size := snapshot.size
          mtime := snapshot.mtime
          pendingDeletes := snapshot.pendingDeletes
          dirtyGeneration := 0 } }
  else { fs with inodes := fs.inodes.remove ino }

end StreamingFs

/-- The second half of `streaming_commit`: the upload is there, the Hub is
told. -/
def commitToHub (caller : Caller) (ino : Ino) (fh : FileHandle)
    (info : XetFileInfo) : Prog CommitResult := do
  let entry ← read ⟨caller, .readPath fh⟩ fun fs =>
    (fs.inodes.get ino).map fun entry => (entry.fullPath, entry.pendingDeletes)
  match entry with
  | none => pure (.error .enoent)
  | some (fullPath, pendingDeletes) =>
      let failure ← perform ⟨caller, .batchOperations fh⟩ (fun _ => true)
        fun outcome fs => fs.batchOperations fh
          (.addFile fullPath info.hash :: pendingDeletes.map .deleteFile)
          outcome
      match failure with
      | some errno => do
          modify ⟨caller, .parkInfo fh⟩ fun fs =>
            fs.updateChannel fh fun channel =>
              { channel with pendingInfo := some info }
          pure (.error errno)
      | none => do
          perform ⟨caller, .applyCommit fh⟩ (fun _ => true)
            fun outcome fs => (fs.applyCommit ino fh info outcome.now, ())
          modify ⟨caller, .markCommitted fh⟩ (·.setState fh .committed)
          pure (.ok ())

def streamingCommit (me : CallId) (caller : Caller) (ino : Ino)
    (fh : FileHandle) : Prog CommitResult := do
  let skip ← read ⟨caller, .skipCommit fh⟩ (·.skipCommit ino fh)
  if skip then pure (.ok ())
  else do
    modify ⟨caller, .flipCommitting fh⟩ fun fs =>
      fs.updateChannel fh fun channel =>
        { channel with state := channel.state.flip }
    let pending ← perform ⟨caller, .takePendingInfo fh⟩ (fun _ => true)
      fun _ fs => fs.takePendingInfo fh
    match pending with
    | some info => commitToHub caller ino fh info
    | none => do
        let sent ← perform ⟨caller, .sendFinish fh⟩
          (fun fs => (fs.channels fh).isClosed || (fs.channels fh).hasRoom)
          fun _ fs => fs.sendFinish me fh
        if sent then do
          let reply ← perform ⟨caller, .awaitReply fh⟩
            (fun fs => (fs.channels fh).isClosed)
            fun _ fs => (fs, fs.finishReply me fh)
          match reply with
          | .ok info => commitToHub caller ino fh info
          | .error errno => pure (.error errno)
        else do
          let committed ← read ⟨caller, .checkClosed fh⟩ fun fs =>
            decide ((fs.channels fh).state = .committed)
          pure (if committed then .ok () else .error .eio)

/-- The commit of `flush` and `link`. -/
def commitStreamingNow (me : CallId) (caller : Caller) (ino : Ino)
    (fh : FileHandle) : Prog CommitResult := do
  lockStaging me caller ino
  let error ← read ⟨caller, .checkError fh⟩ fun fs => (fs.channels fh).error
  match error with
  | some errno => do
      unlockStaging caller ino
      pure (.error errno)
  | none => do
      let reached ← read ⟨caller, .checkState fh⟩ fun fs =>
        (fs.channels fh).state.terminalResult
      match reached with
      | some result => do
          unlockStaging caller ino
          pure result
      | none => do
          installCommitHook caller ino fh
          let result ← streamingCommit me caller ino fh
          match result with
          | .error errno => do
              unlockStaging caller ino
              pure (.error errno)
          | .ok _ => do
              modify ⟨caller, .setCommitted fh⟩ (·.setState fh .committed)
              fulfillCommitHook caller ino fh (.ok ())
              unlockStaging caller ino
              pure (.ok ())

def deferCommit (caller : Caller) (ino : Ino) (fh : FileHandle) :
    Prog Unit := do
  installCommitHook caller ino fh
  modify ⟨caller, .demote fh⟩ fun fs =>
    fs.updateChannel fh fun channel =>
      { channel with state := channel.state.demote }

end HfMount.Streaming
