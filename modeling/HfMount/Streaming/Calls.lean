import HfMount.Streaming.Programs

/-!
# The calls and the worker

`write`, `flush`, `release`, `open` with O_TRUNC, `create`, the commit that a
`link` triggers, `unlink`, and the parts of the shutdown drain, as the
streaming mode runs them, and the worker of each channel as background work.
-/

namespace HfMount.Streaming

open SlashPath Inode Vfs Interleaving Program

/-- What a call returns when it succeeds. -/
inductive Answer where
  | done
  | written (count : Nat)
  | opened (fh : FileHandle)
  /-- `unlink` found another inode behind the name and starts again. -/
  | retry
  deriving DecidableEq

abbrev Reply := Except Errno Answer

/-! ## Write -/

namespace StreamingFs

/-- The flag says whether the channel is still there. -/
def reserveSlot (fs : StreamingFs) (fh : FileHandle) : StreamingFs × Bool :=
  if (fs.channels fh).isClosed then (fs, false)
  else
    (fs.updateChannel fh fun channel =>
      { channel with permits := channel.permits + 1 }, true)

/-- State check and enqueue under the mutex of the state; a rejected write
gives its slot back. -/
def enqueue (fs : StreamingFs) (fh : FileHandle) (offset : Nat)
    (data : Bytes) : StreamingFs × Bool :=
  if (fs.channels fh).state.isOpen then
    (fs.updateChannel fh fun channel =>
      { channel with
        permits := channel.permits - 1
        queue := channel.queue ++ [.data data]
        enqueued := channel.enqueued ++ [(offset, data)] }, true)
  else
    (fs.updateChannel fh fun channel =>
      { channel with permits := channel.permits - 1 }, false)

end StreamingFs

def write (fh : FileHandle) (offset : Nat) (data : Bytes) : Prog Reply := do
  let found ← perform ⟨.write fh, .findHandle fh⟩
    (fun fs => fs.openFilesLock.isNone) fun _ fs => (fs, decide (fh ∈ fs.openFiles))
  if !found then pure (.error .ebadf)
  else do
    let error ← read ⟨.write fh, .checkError fh⟩ fun fs =>
      (fs.channels fh).error
    match error with
    | some errno => pure (.error errno)
    | none => do
        let expected ← read ⟨.write fh, .checkOffset fh⟩ fun fs =>
          (fs.channels fh).bytesWritten
        if offset ≠ expected then pure (.error .einval)
        else do
          let reserved ← perform ⟨.write fh, .reserveSlot fh⟩
            (fun fs => (fs.channels fh).isClosed || (fs.channels fh).hasRoom)
            fun _ fs => fs.reserveSlot fh
          if !reserved then pure (.error .eio)
          else do
            let accepted ← perform ⟨.write fh, .enqueue fh⟩ (fun _ => true)
              fun _ fs => fs.enqueue fh offset data
            if !accepted then pure (.error .eio)
            else do
              modify ⟨.write fh, .advanceCounter fh⟩ fun fs =>
                fs.updateChannel fh fun channel =>
                  { channel with
                    bytesWritten := channel.bytesWritten + data.length }
              modify ⟨.write fh, .setSize fh⟩ fun fs =>
                { fs with
                  inodes := fs.inodes.modify (fs.channels fh).ino
                    fun entry => { entry with size := offset + data.length } }
              pure (.ok (.written data.length))

/-! ## Flush and link -/

/-- What `flush` reads of its handle: the inode, if the handle streams. -/
def findStreaming (caller : Caller) (fh : FileHandle) : Prog (Option Ino) :=
  perform ⟨caller, .findHandle fh⟩ (fun fs => fs.openFilesLock.isNone)
    fun _ fs =>
      (fs, if fh ∈ fs.openFiles then some (fs.channels fh).ino else none)

/-- The process that flushes did not open the handle. -/
def otherProcess (openPid pid : Option Nat) (outcome : Outcome) : Bool :=
  match openPid, pid with
  | some opener, some flusher => opener ≠ flusher && !outcome.sameProcess
  | _, _ => false

def CommitResult.reply : CommitResult → Reply
  | .ok _ => .ok .done
  | .error errno => .error errno

/-- The kernel passes the inode of the handle along, which is not repeated
here.  Nothing is to be done for a handle that does not stream. -/
def flush (me : CallId) (fh : FileHandle) (pid : Option Nat) : Prog Reply := do
  let found ← findStreaming (.flush fh) fh
  match found with
  | none => pure (.ok .done)
  | some ino => do
      let error ← read ⟨.flush fh, .checkError fh⟩ fun fs =>
        (fs.channels fh).error
      match error with
      | some errno => pure (.error errno)
      | none => do
          let reached ← read ⟨.flush fh, .checkState fh⟩ fun fs =>
            (fs.channels fh).state.terminalResult
          match reached with
          | some result => pure result.reply
          | none => do
              let foreign ← perform ⟨.flush fh, .checkProcess fh⟩
                (fun _ => true) fun outcome fs =>
                  (fs, otherProcess (fs.channels fh).openPid pid outcome)
              if foreign then do
                deferCommit (.flush fh) ino fh
                pure (.ok .done)
              else do
                let written ← read ⟨.flush fh, .checkCounter fh⟩ fun fs =>
                  (fs.channels fh).bytesWritten
                if written = 0 then do
                  deferCommit (.flush fh) ino fh
                  pure (.ok .done)
                else do
                  let result ← commitStreamingNow me (.flush fh) ino fh
                  pure result.reply

namespace StreamingFs

/-- The open handles that hold the inode's current dirty bytes. -/
def activeHandles (fs : StreamingFs) (ino : Ino) (generation : Nat) :
    List FileHandle :=
  fs.openFiles.filter fun fh =>
    (fs.channels fh).ino = ino &&
      (fs.channels fh).ownsGeneration generation &&
        !(fs.channels fh).isTerminal

/-- The scan of the hash map, which meets the handles in any order. -/
def firstActive (fs : StreamingFs) (ino : Ino) (generation : Nat)
    (outcome : Outcome) : Option FileHandle :=
  if outcome.first ∈ fs.activeHandles ino generation then some outcome.first
  else (fs.activeHandles ino generation).head?

/-- `link_source`: whether the file is committed. -/
def linkSource (fs : StreamingFs) (ino : Ino) : Except Errno Bool :=
  match fs.inodes.get ino with
  | none => .error .enoent
  | some entry =>
      if entry.kind ≠ .file then .error .eperm
      else .ok (!entry.isDirty && (entry.xetHash.filter (· ≠ [])).isSome)

end StreamingFs

def streamingChannelFor (caller : Caller) (ino : Ino) :
    Prog (Option FileHandle) := do
  let generation ← read ⟨caller, .readGeneration ino⟩ fun fs =>
    (fs.inodes.get ino).map (·.dirtyGeneration)
  match generation with
  | none => pure none
  | some generation =>
      perform ⟨caller, .scanHandles ino⟩ (fun fs => fs.openFilesLock.isNone)
        fun outcome fs => (fs, fs.firstActive ino generation outcome)

/-- The listing of a directory, and whatever is validated with it. -/
def loadChildren (caller : Caller) : Prog (Except Errno Unit) :=
  perform ⟨caller, .loadChildren⟩ (fun _ => true) fun outcome fs =>
    (fs, match outcome.error with
      | some errno => .error errno
      | none => .ok ())

/-- `link` up to the point where the source is committed; the alias that it
then adds is not part of the streaming state. -/
def link (me : CallId) (ino : Ino) : Prog Reply := do
  let source ← read ⟨.link ino, .linkSource ino⟩ (·.linkSource ino)
  match source with
  | .error errno => pure (.error errno)
  | .ok true => pure (.ok .done)
  | .ok false => do
      let active ← streamingChannelFor (.link ino) ino
      match active with
      | none => pure (.error .enotsup)
      | some fh => do
          let loaded ← loadChildren (.link ino)
          match loaded with
          | .error errno => pure (.error errno)
          | .ok _ => do
              let result ← commitStreamingNow me (.link ino) ino fh
              pure result.reply

/-! ## Release -/

/-- One more try after a failed Hub call, which left the upload behind. -/
def commitWithRetry (me : CallId) (caller : Caller) (ino : Ino)
    (fh : FileHandle) : Prog CommitResult := do
  let result ← streamingCommit me caller ino fh
  match result with
  | .ok _ => pure (.ok ())
  | .error errno => do
      let parked ← read ⟨caller, .checkRetry fh⟩ fun fs =>
        (fs.channels fh).pendingInfo.isSome
      if parked then streamingCommit me caller ino fh
      else pure (.error errno)

/-- What `release` records of its commit; a failure reverts the inode. -/
def settleCommit (ino : Ino) (fh : FileHandle) : CommitResult → Prog Unit
  | .ok _ => modify ⟨.release fh, .setCommitted fh⟩ (·.setState fh .committed)
  | .error _ => do
      modify ⟨.release fh, .revertInode fh⟩ fun fs =>
        fs.revertInode ino (fs.channels fh).snapshot
      modify ⟨.release fh, .setFailed fh⟩
        (·.setState fh (.failed "commit failed"))

/-- The commit section of `release`; the error is that of the commit. -/
def releaseCommit (me : CallId) (ino : Ino) (fh : FileHandle) :
    Prog CommitResult := do
  lockStaging me (.release fh) ino
  let reached ← read ⟨.release fh, .needsCommit fh⟩ fun fs =>
    (fs.channels fh).isTerminal
  if reached then do
    unlockStaging (.release fh) ino
    pure (.ok ())
  else do
    let result ← commitWithRetry me (.release fh) ino fh
    settleCommit ino fh result
    fulfillCommitHook (.release fh) ino fh result
    unlockStaging (.release fh) ino
    pure result

/-- `reap_on_last_release`: an inode without links and handles goes. -/
def StreamingFs.reapInode (fs : StreamingFs) (ino : Ino) : StreamingFs :=
  if fs.inodes.hasOpenHandles ino then fs
  else { fs with inodes := fs.inodes.removeOrphan ino }

/-- The handle count is dropped after the commit section. -/
def releaseHandle (ino : Ino) (fh : FileHandle) (result : CommitResult) :
    Prog Reply := do
  modify ⟨.release fh, .dropHandle ino⟩ fun fs =>
    { fs with inodes := fs.inodes.dropOpenHandles ino }
  modify ⟨.release fh, .reapInode ino⟩ (·.reapInode ino)
  pure result.reply

/-- A handle that is not settled yet hands its commit over to those who
wait. -/
def handOver (ino : Ino) (fh : FileHandle) : Bool → Prog Unit
  | true => pure ()
  | false => installCommitHook (.release fh) ino fh

/-- The write lock of `open_files` is held until the hook is installed. -/
def release (me : CallId) (fh : FileHandle) : Prog Reply := do
  let removed ← perform ⟨.release fh, .removeHandle fh⟩
    (fun fs => fs.openFilesLock.isNone) fun _ fs =>
      if fh ∈ fs.openFiles then
        ({ fs with
            openFiles := fs.openFiles.filter (· ≠ fh)
            openFilesLock := some (me, fh) }, some (fs.channels fh).ino)
      else (fs, none)
  match removed with
  | none => pure (.ok .done)
  | some ino => do
      let reached ← read ⟨.release fh, .checkState fh⟩ fun fs =>
        (fs.channels fh).isTerminal
      handOver ino fh reached
      modify ⟨.release fh, .unlockFiles⟩ fun fs =>
        { fs with openFilesLock := none }
      let terminal ← read ⟨.release fh, .checkState fh⟩ fun fs =>
        (fs.channels fh).isTerminal
      if terminal then releaseHandle ino fh (.ok ())
      else do
        let result ← releaseCommit me ino fh
        releaseHandle ino fh result

/-! ## Opening and creating -/

namespace StreamingFs

def snapshot (fs : StreamingFs) (ino : Ino) : Option InodeSnapshot :=
  (fs.inodes.get ino).map fun entry =>
    { xetHash := entry.xetHash
      size := entry.size
      mtime := entry.mtime
      pendingDeletes := entry.pendingDeletes
      existedBefore := true }

/-- `setup_streaming_writer`: the CAS writer is created, or that fails. -/
def setupWriter (fs : StreamingFs) (ino : Ino) (pid : Option Nat)
    (snapshot : InodeSnapshot) (generation : Nat) (outcome : Outcome) :
    StreamingFs × Except Errno FileHandle :=
  match outcome.error with
  | some _ => (fs, .error .eio)
  | none =>
      ({ fs with
          channels := Function.update fs.channels fs.nextFileHandle
            (.new ino pid snapshot generation)
          nextFileHandle := fs.nextFileHandle + 1 }, .ok fs.nextFileHandle)

/-- The history of the channels that an O_TRUNC open takes over. -/
def markSuperseded (fs : StreamingFs) (ino : Ino) (fh : FileHandle) :
    FileHandle → StreamingChannel :=
  fun other =>
    let channel := fs.channels other
    if other ≠ fh ∧ channel.ino = ino ∧ channel.isTerminal = false then
      { channel with superseded := true }
    else channel

/-- The inode becomes the new writer's: dirty, empty, without a hash.  The
channel keeps generation zero when the inode is gone. -/
def markDirty (fs : StreamingFs) (ino : Ino) (fh : FileHandle) : StreamingFs :=
  let inodes := fs.inodes.modify ino fun entry =>
    { entry.setDirty with
      size := 0
      xetHash := none }
  let generation :=
    match inodes.get ino with
    | some entry => entry.dirtyGeneration
    | none => (fs.channels fh).dirtyGenerationAtOpen
  { fs with
    inodes
    channels := Function.update (fs.markSuperseded ino fh) fh
      { fs.channels fh with dirtyGenerationAtOpen := generation } }

/-- The active writer of the inode is told that it lost. -/
def failSuperseded (fs : StreamingFs) (old : FileHandle) : StreamingFs :=
  fs.updateChannel old fun channel =>
    { channel with
      state := .failed "superseded by O_TRUNC reopen"
      superseded := true }

/-- The checks and the insertion of `create`; the new inode is dirty. -/
def createInode (fs : StreamingFs) (parent : Ino) (name : Name)
    (mode uid gid : Nat) (now : Time) :
    StreamingFs × Except Errno (Ino × Nat) :=
  match fs.inodes.get parent with
  | none => (fs, .error .enoent)
  | some parentEntry =>
      if parentEntry.kind ≠ .directory then (fs, .error .enotdir)
      else if (fs.inodes.lookupChild parent name).isSome then
        (fs, .error .eexist)
      else
        let inserted := fs.inodes.insert parent name
          (childPath parentEntry.fullPath name) .file 0 now none mode uid gid
          now
        let dirty := inserted.2.modify inserted.1 (·.setDirty)
        let generation :=
          match dirty.get inserted.1 with
          | some entry => entry.dirtyGeneration
          | none => 0
        ({ fs with inodes := dirty.touchParent parent now },
          .ok (inserted.1, generation))

/-- The handle becomes visible. -/
def insertHandle (fs : StreamingFs) (fh : FileHandle) : StreamingFs :=
  { fs with openFiles := fh :: fs.openFiles }

end StreamingFs

/-- The active writer, if there is one, is failed and its waiters released. -/
def supersede (ino : Ino) (fh : FileHandle) :
    Option FileHandle → Prog Unit
  | none => pure ()
  | some old => do
      modify ⟨.opened ino fh, .supersede old⟩ (·.failSuperseded old)
      fulfillCommitHook (.opened ino fh) ino old (.error .eio)

/-- The writer is there: the inode passes to it and the handle is
installed. -/
def installWriter (ino : Ino) (fh : FileHandle) (active : Option FileHandle) :
    Prog Reply := do
  supersede ino fh active
  modify ⟨.opened ino fh, .markDirty fh⟩ (·.markDirty ino fh)
  modify ⟨.opened ino fh, .bumpHandles ino⟩ fun fs =>
    { fs with inodes := fs.inodes.bumpOpenHandles ino }
  perform ⟨.opened ino fh, .insertHandle fh⟩ (fun fs => fs.openFilesLock.isNone)
    fun _ fs => (fs.insertHandle fh, ())
  unlockStaging (.opened ino fh) ino
  pure (.ok (.opened fh))

/-- The part of `open_streaming_write` under the per-inode lock. -/
def openLocked (ino : Ino) (pid : Option Nat) : Prog Reply := do
  let active ← streamingChannelFor (.openTruncate ino) ino
  let snapshot ← read ⟨.openTruncate ino, .takeSnapshot ino⟩ fun fs =>
    match active with
    | some old => some (fs.channels old).snapshot
    | none => fs.snapshot ino
  match snapshot with
  | none => do
      unlockStaging (.openTruncate ino) ino
      pure (.error .enoent)
  | some snapshot => do
      let writer ← perform ⟨.openTruncate ino, .createWriter ino⟩
        (fun _ => true) fun outcome fs =>
          fs.setupWriter ino pid snapshot 0 outcome
      match writer with
      | .error errno => do
          unlockStaging (.openTruncate ino) ino
          pure (.error errno)
      | .ok fh => installWriter ino fh active

def openStreamingWrite (me : CallId) (ino : Ino) (pid : Option Nat) :
    Prog Reply := do
  let waited ← awaitPendingCommit (.openTruncate ino) ino
  match waited with
  | .error errno => pure (.error errno)
  | .ok _ => do
      lockStaging me (.openTruncate ino) ino
      openLocked ino pid

/-- `open` for writing with O_TRUNC. -/
def openTruncate (me : CallId) (ino : Ino) (pid : Option Nat) :
    Prog Reply := do
  let isFile ← read ⟨.openTruncate ino, .checkInode ino⟩ fun fs =>
    (fs.inodes.get ino).any fun entry => entry.kind = .file
  if isFile then openStreamingWrite me ino pid
  else pure (.error .enoent)

/-- The handle of a new file, unless the inode has been removed meanwhile. -/
def installCreated (ino : Ino) (fh : FileHandle) : Prog Reply := do
  modify ⟨.created ino fh, .bumpHandles ino⟩ fun fs =>
    { fs with inodes := fs.inodes.bumpOpenHandles ino }
  let present ← perform ⟨.created ino fh, .insertHandle fh⟩
    (fun fs => fs.openFilesLock.isNone) fun _ fs =>
      (fs.insertHandle fh, (fs.inodes.get ino).isSome)
  pure (if present then .ok (.opened fh) else .error .enoent)

def create (parent : Ino) (name : Name) (mode uid gid : Nat)
    (pid : Option Nat) : Prog Reply := do
  let loaded ← loadChildren .create
  match loaded with
  | .error errno => pure (.error errno)
  | .ok _ => do
      let inserted ← perform ⟨.create, .createInode⟩ (fun _ => true)
        fun outcome fs => fs.createInode parent name mode uid gid outcome.now
      match inserted with
      | .error errno => pure (.error errno)
      | .ok (ino, generation) => do
          let writer ← perform ⟨.creating ino, .createWriter ino⟩
            (fun _ => true) fun outcome fs => fs.setupWriter ino pid
              { xetHash := none
                size := 0
                mtime := outcome.now
                pendingDeletes := []
                existedBefore := false } generation outcome
          match writer with
          | .error errno => do
              modify ⟨.creating ino, .dropInode ino⟩ fun fs =>
                { fs with inodes := fs.inodes.remove ino }
              pure (.error errno)
          | .ok fh => installCreated ino fh

/-! ## Unlink -/

structure UnlinkTarget where
  ino : Ino
  fullPath : Path
  needsRemoteDelete : Bool
  dirty : Bool

namespace StreamingFs

def unlinkTarget (fs : StreamingFs) (parent : Ino) (name : Name) :
    Except Errno UnlinkTarget :=
  match fs.inodes.lookupChild parent name with
  | none => .error .enoent
  | some entry =>
      if entry.kind = .directory then .error .eisdir
      else .ok
        { ino := entry.inode
          fullPath := entry.fullPath
          needsRemoteDelete := entry.xetHash.isSome && decide (entry.nlink ≤ 1)
          dirty := entry.isDirty }

/-- The inode goes when its last link is gone and no handle is open. -/
def unlinkLocal (fs : StreamingFs) (parent : Ino) (name : Name) (ino : Ino)
    (now : Time) : StreamingFs :=
  let unlinked := fs.inodes.unlinkOne parent name now
  let touched := unlinked.2.touchParent parent now
  let lastLink := unlinked.1.getD false
  { fs with
    inodes :=
      if lastLink && !touched.hasOpenHandles ino then touched.removeOrphan ino
      else touched
    unlinked := if lastLink then ino :: fs.unlinked else fs.unlinked }

end StreamingFs

/-- Removes the name locally, after the Hub if it has the file. -/
def unlinkTarget (parent : Ino) (name : Name) (target : UnlinkTarget) :
    Prog Reply := do
  let failure ← perform ⟨.unlink, .remoteDelete target.ino⟩ (fun _ => true)
    fun outcome fs =>
      (fs, if target.needsRemoteDelete then outcome.error else none)
  match failure with
  | some errno => do
      unlockStaging .unlink target.ino
      pure (.error errno)
  | none => do
      perform ⟨.unlink, .unlinkLocal target.ino⟩ (fun _ => true)
        fun outcome fs =>
          (fs.unlinkLocal parent name target.ino outcome.now, ())
      unlockStaging .unlink target.ino
      pure (.ok .done)

/-- A dirty file with open handles is not unlinked. -/
def unlink (me : CallId) (parent : Ino) (name : Name) : Prog Reply := do
  let first ← read ⟨.unlink, .lookupTarget⟩ (·.unlinkTarget parent name)
  match first with
  | .error errno => pure (.error errno)
  | .ok locked => do
      lockStaging me .unlink locked.ino
      let second ← read ⟨.unlink, .recheckTarget⟩ (·.unlinkTarget parent name)
      match second with
      | .error errno => do
          unlockStaging .unlink locked.ino
          pure (.error errno)
      | .ok target =>
          if target.ino ≠ locked.ino then do
            unlockStaging .unlink locked.ino
            pure (.ok .retry)
          else do
            let blocked ← read ⟨.unlink, .checkInode target.ino⟩ fun fs =>
              target.dirty && fs.inodes.hasOpenHandles target.ino
            if blocked then do
              unlockStaging .unlink target.ino
              pure (.error .eperm)
            else unlinkTarget parent name target

/-! ## Shutdown -/

/-- What the drain does for each handle that it found open; it only logs the
errors. -/
def drain (me : CallId) (fh : FileHandle) : Prog Reply := do
  let _ ← flush me fh none
  release me fh

/-- What the drain does for each inode that it found in `pending_commits`. -/
def awaitCommit (ino : Ino) : Prog Reply := do
  let waited ← awaitPendingCommit .shutdown ino
  pure (CommitResult.reply waited)

/-! ## The worker -/

/-- What a worker does next; the upload fails with the given error, or
succeeds. -/
inductive Work where
  | receive (fh : FileHandle)
  | process (fh : FileHandle) (error : Option Errno)
  deriving DecidableEq

namespace StreamingWorker

variable (store : ContentStore)

/-- The reply to `Finish`, which takes the error that the worker left. -/
def finish (worker : StreamingWorker) (left error : Option Errno) :
    Except Errno XetFileInfo :=
  if worker.failed then .error (left.getD .eio)
  else
    match error with
    | some errno => .error errno
    | none => .ok
        { hash := store.hash worker.written
          fileSize := worker.written.length }

end StreamingWorker

namespace StreamingChannel

/-- `rx.recv`. -/
def receive (channel : StreamingChannel) : Option StreamingChannel :=
  match channel.worker.reply, channel.worker.current, channel.queue with
  | none, none, message :: queue => some
      { channel with
        queue
        worker := { channel.worker with current := some message } }
  | _, _, _ => none

/-- The rest of one round of the worker's loop. -/
def process (store : ContentStore) (channel : StreamingChannel)
    (error : Option Errno) : Option StreamingChannel :=
  match channel.worker.current with
  | none => none
  | some (.data bytes) =>
      let worker := { channel.worker with current := none }
      if worker.failed then some { channel with worker }
      else
        match error with
        | some errno => some
            { channel with
              error := some errno
              worker := { worker with failed := true } }
        | none => some
            { channel with
              worker := { worker with written := worker.written ++ bytes } }
  | some (.finish caller) => some
      { channel with
        error := if channel.worker.failed then none else channel.error
        worker :=
          { channel.worker with
            current := none
            reply := some
              (caller, channel.worker.finish store channel.error error) } }

end StreamingChannel

/-- A worker exists for every channel that was set up. -/
def work (store : ContentStore) (fs : StreamingFs) : Work → Option StreamingFs
  | .receive fh =>
      if fh < fs.nextFileHandle then
        (fs.channels fh).receive.map fun channel =>
          fs.updateChannel fh fun _ => channel
      else none
  | .process fh error =>
      if fh < fs.nextFileHandle then
        ((fs.channels fh).process store error).map fun channel =>
          fs.updateChannel fh fun _ => channel
      else none

/-! ## The system -/

/-- The kernel passes only valid names. -/
inductive Call where
  | write (fh : FileHandle) (offset : Nat) (data : Bytes)
  | flush (fh : FileHandle) (pid : Option Nat)
  | link (ino : Ino)
  | release (fh : FileHandle)
  | openTruncate (ino : Ino) (pid : Option Nat)
  | create (parent : Ino) (name : { name : Name // ValidName name })
      (mode uid gid : Nat) (pid : Option Nat)
  | unlink (parent : Ino) (name : Name)
  | drain (fh : FileHandle)
  | awaitCommit (ino : Ino)

def program (me : CallId) : Call → Prog Reply
  | .write fh offset data => write fh offset data
  | .flush fh pid => flush me fh pid
  | .link ino => link me ino
  | .release fh => release me fh
  | .openTruncate ino pid => openTruncate me ino pid
  | .create parent name mode uid gid pid =>
      create parent name.1 mode uid gid pid
  | .unlink parent name => unlink me parent name
  | .drain fh => drain me fh
  | .awaitCommit ino => awaitCommit ino

/-- Any number of calls and the workers of all channels. -/
def system (store : ContentStore) :
    System Label Outcome StreamingFs Call Reply Work where
  program := program
  background := fun worked fs => work store fs worked

/-- The calls in progress and the state that they share. -/
abbrev Mount := Pool Label Outcome StreamingFs Call Reply

/-- A run of calls, workers and external events. -/
abbrev MountEvent := Event Outcome Call Work

end HfMount.Streaming
