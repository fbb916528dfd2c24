import HfMount.Flush.Batch
import HfMount.Flush.DeleteQueue
import HfMount.Lib.BatchWorker
import HfMount.Vfs.DirtyMarks
import HfMount.Vfs.References

/-!
# The flush loop and those who feed it

The background loop collects requests for a while, sends the queued deletes,
and flushes the requested inodes in one batch.  Calls of the file system make
files dirty and ask for their flush later, when the handle is released; all of
them go on while a batch is under way.  The per-inode locks only rule out some
orders, so every run of the source is a run here.
-/

namespace HfMount.Flush

open SlashPath Inode Vfs Streaming Transition

inductive FlushSignal where
  | dirty (ino : Ino)
  /-- There are deletes to send, and no inode. -/
  | wakeDeletes
  deriving DecidableEq

def FlushSignal.ino : FlushSignal → Option Ino
  | .dirty ino => some ino
  | .wakeDeletes => none

/-- A call that has made an inode dirty, or has given up its handle, and has
yet to install the handle, to look at the links, or to ask for the flush. -/
inductive WriterOp where
  | creating (ino : Ino)
  | installing (ino : Ino)
  | releasing (ino : Ino)
  | scheduling (ino : Ino)
  deriving DecidableEq

@[simp] def WriterOp.ino : WriterOp → Ino
  | .creating ino | .installing ino | .releasing ino | .scheduling ino => ino

/-- How far the loop has come with the batch at hand. -/
inductive BatchPhase where
  | idle
  | started
  | deleting (id : Nat)
  | locked
  | uploading (items : List FlushItem) (uploads : List Upload)
  | uploaded (uploads : List Upload)
  | sending (uploads : List Upload)
  | committed (uploads : List Upload)
  deriving DecidableEq

namespace BatchPhase

/-- The snapshot of the batch is still to come. -/
@[simp] def isEarly : BatchPhase → Bool
  | .idle | .started | .deleting _ | .locked => true
  | .uploading _ _ | .uploaded _ | .sending _ | .committed _ => false

/-- The items that the batch has still to commit. -/
@[simp] def items : BatchPhase → List FlushItem
  | .idle | .started | .deleting _ | .locked => []
  | .uploading items _ => items
  | .uploaded uploads => uploads.map (·.1)
  | .sending uploads | .committed uploads =>
      (changedUploads uploads).map (·.1)

theorem items_of_early {phase : BatchPhase} (early : phase.isEarly = true) :
    phase.items = [] := by
  cases phase <;> first
    | rfl
    | cases early

end BatchPhase

/-- What has become of an inode since its flush was last asked for. -/
inductive FlushOutcome where
  | none
  | failed
  | reported
  deriving DecidableEq

/-- `writers` are the writable handles and `drain` is what `shutdown` has found
dirty.  `outcome` is not in the source: it says whether the error of the last
flush is still waiting for a caller. -/
structure FlushPipeline where
  table : InodeTable
  staged : Ino → Option Bytes
  writers : List (FileHandle × Ino)
  op : CallId → Option WriterOp
  deletes : FlushManager
  worker : BatchWorker FlushSignal
  phase : BatchPhase
  errors : FlushErrors
  outcome : Ino → FlushOutcome
  remote : Remote
  drain : Option (List Ino)

/-- The table only changes by operations that make no file dirty; what does is
an event of its own. -/
inductive PipelineEvent where
  | table (op : TableOp)
  | open (id : CallId) (ino : Ino) (truncate : Bool) (now : Time)
  | create (id : CallId) (parent : Ino) (name : Name) (fullPath : Path)
      (mode uid gid : Nat) (now : Time)
  | createFails (id : CallId)
  | install (id : CallId) (fh : FileHandle)
  | write (fh : FileHandle) (newEnd : Nat)
  | truncate (id : CallId) (ino : Ino) (newSize : Nat) (now : Time)
  | release (id : CallId) (fh : FileHandle)
  | releaseCheck (id : CallId)
  | schedule (id : CallId)
  | fsync (ino : Ino)
  | checkError (ino : Ino)
  | stage (ino : Ino) (content : Option Bytes)
  | gcOne (ino : Ino)
  | delete (event : DeleteEvent)
  | receive
  | collect
  | start
  | takeDeletes
  | deletesDone
  | snapshot
  | uploadChunk (answer : Except (List Char) (List XetFileInfo))
  | commitUnchanged (now : Time)
  | hubAnswer (answer : Except (List Char) Unit) (applied : Bool)
  | commit (now : Time)
  | stop
  | abort
  | shutdownScan
  | shutdownSend
  | shutdownClose

namespace PipelineEvent

/-- A step of the loop. -/
def isWork : PipelineEvent → Bool
  | .receive | .collect | .start | .takeDeletes | .deletesDone | .snapshot
  | .uploadChunk _ | .commitUnchanged _ | .hubAnswer _ _ | .commit _
  | .stop => true
  | _ => false

/-- A call that works on the inode table. -/
def isMark : PipelineEvent → Bool
  | .table _ | .open _ _ _ _ | .create _ _ _ _ _ _ _ _ | .createFails _
  | .install _ _ | .write _ _ | .truncate _ _ _ _ => true
  | _ => false

/-- A step of the shutdown itself. -/
def isShutdown : PipelineEvent → Bool
  | .shutdownScan | .shutdownSend | .shutdownClose => true
  | _ => false

def IsCalm : PipelineEvent → Prop
  | .table op => op.IsCalm
  | _ => True

end PipelineEvent

/-- The entry once a write-open has marked it. -/
def markOpened (entry : InodeEntry) (truncate : Bool) (now : Time) :
    InodeEntry :=
  let dirty := entry.setDirty
  { dirty with
    size := if truncate then 0 else dirty.size
    mtime := if truncate then now else dirty.mtime
    ctime := if truncate then now else dirty.ctime }

def markWritten (entry : InodeEntry) (newEnd : Nat) : InodeEntry :=
  { entry with size := max entry.size newEnd }.setDirty

namespace FlushPipeline

/-! ## Calls of the file system -/

def setOp (state : FlushPipeline) (id : CallId) (op : Option WriterOp) :
    FlushPipeline :=
  { state with op := Function.update state.op id op }

def setTable (state : FlushPipeline) (table : InodeTable) : FlushPipeline :=
  { state with table }

/-- `enqueue`: a request for an inode opens a new account of its flush. -/
def enqueue (state : FlushPipeline) (ino : Ino) : FlushPipeline :=
  if state.worker.accepts then
    { state with
      worker := state.worker.send (.dirty ino)
      outcome := Function.update state.outcome ino .none }
  else state

def openWrite (state : FlushPipeline) (id : CallId) (ino : Ino)
    (truncate : Bool) (now : Time) : Option FlushPipeline :=
  match state.op id, state.table.get ino with
  | none, some entry =>
      some ((state.setTable
        (state.table.put ino (markOpened entry truncate now))).setOp id
          (some (.installing ino)))
  | _, _ => none

def create (state : FlushPipeline) (id : CallId) (parent : Ino) (name : Name)
    (fullPath : Path) (mode uid gid : Nat) (now : Time) :
    Option FlushPipeline :=
  if (state.op id).isNone && state.table.isDirectory parent &&
      (state.table.lookupChild parent name).isNone then
    let created := References.createEntry state.table parent name fullPath mode
      uid gid now
    some ((state.setTable created.2).setOp id (some (.creating created.1)))
  else none

/-- The backing of the new file cannot be opened. -/
def createFails (state : FlushPipeline) (id : CallId) : Option FlushPipeline :=
  match state.op id with
  | some (.creating ino) =>
      some ((state.setTable (state.table.remove ino)).setOp id none)
  | _ => none

def install (state : FlushPipeline) (id : CallId) (fh : FileHandle) :
    Option FlushPipeline :=
  let installed (ino : Ino) : FlushPipeline :=
    { (state.setTable (state.table.bumpOpenHandles ino)).setOp id none with
      writers := (fh, ino) :: state.writers }
  match state.op id with
  | some (.creating ino) | some (.installing ino) => some (installed ino)
  | _ => none

/-- The kernel releases a handle after the writes through it. -/
def write (state : FlushPipeline) (fh : FileHandle) (newEnd : Nat) :
    Option FlushPipeline :=
  (state.writers.lookup fh).map fun ino =>
    state.setTable (state.table.modify ino (markWritten · newEnd))

def truncate (state : FlushPipeline) (id : CallId) (ino : Ino) (newSize : Nat)
    (now : Time) : Option FlushPipeline :=
  match state.op id, state.table.get ino with
  | none, some entry =>
      some ((state.setTable
        (state.table.put ino (StagedFile.truncatedEntry entry newSize now))).setOp id
          (some (.scheduling ino)))
  | _, _ => none

def release (state : FlushPipeline) (id : CallId) (fh : FileHandle) :
    Option FlushPipeline :=
  match state.op id, state.writers.lookup fh with
  | none, some ino =>
      some { state.setOp id (some (.releasing ino)) with
        writers := state.writers.eraseP (·.1 == fh) }
  | _, _ => none

/-- Nobody asks for the flush of a file that has lost its last link. -/
def releaseCheck (state : FlushPipeline) (id : CallId) :
    Option FlushPipeline :=
  match state.op id with
  | some (.releasing ino) =>
      some (state.setOp id
        (if (state.table.get ino).any (·.nlink = 0) then none
          else some (.scheduling ino)))
  | _ => none

def schedule (state : FlushPipeline) (id : CallId) : Option FlushPipeline :=
  match state.op id with
  | some (.scheduling ino) => some ((state.enqueue ino).setOp id none)
  | _ => none

/-- `check_error`, which `flush` answers with. -/
def checkError (state : FlushPipeline) (ino : Ino) : FlushPipeline :=
  { state with
    errors := Function.update state.errors ino none
    outcome :=
      if state.outcome ino = .failed then
        Function.update state.outcome ino .reported
      else state.outcome }

/-- `gc_one`: only the staging file of a clean inode goes. -/
def gcOne (state : FlushPipeline) (ino : Ino) : FlushPipeline :=
  if (state.table.get ino).any (!·.isDirty) then
    { state with staged := Function.update state.staged ino none }
  else state

/-- One step of the delete queue.  A new delete wakes the loop, and the Hub
drops the paths of a call that succeeds. -/
def delete (state : FlushPipeline) (event : DeleteEvent) :
    Option FlushPipeline :=
  (state.deletes.step event).map fun deletes =>
    match event with
    | .enqueue _ => { state with
        deletes
        worker := state.worker.send .wakeDeletes }
    | .hubDone id true => { state with
        deletes
        remote := batchOperations state.remote
          (((state.deletes.batch id).elim [] (·.paths)).map .deleteFile) }
    | _ => { state with deletes }

/-! ## The loop -/

def setPhase (state : FlushPipeline) (phase : BatchPhase) : FlushPipeline :=
  { state with phase }

def receive (state : FlushPipeline) : Option FlushPipeline :=
  state.worker.receive.map fun worker => { state with worker }

def collect (state : FlushPipeline) : Option FlushPipeline :=
  state.worker.collect.map fun worker => { state with worker }

def start (state : FlushPipeline) : Option FlushPipeline :=
  state.worker.start.map fun worker =>
    { state with worker, phase := .started }

/-- The batch is over, however it went. -/
def finish (state : FlushPipeline) : Option FlushPipeline :=
  state.worker.finish.map fun worker => { state with worker, phase := .idle }

/-- `flush_pending_deletes` in the loop; an empty queue is passed over. -/
def takeDeletes (state : FlushPipeline) : Option FlushPipeline :=
  match state.phase with
  | .started =>
      match state.deletes.takeDeletes with
      | none => some (state.setPhase .locked)
      | some deletes => some { state with
          deletes
          phase := .deleting state.deletes.nextBatch }
  | _ => none

/-- The paths have been sent or are back in the queue. -/
def deletesDone (state : FlushPipeline) : Option FlushPipeline :=
  match state.phase with
  | .deleting id =>
      if (state.deletes.batch id).isNone then some (state.setPhase .locked)
      else none
  | _ => none

/-- The inodes of the batch, each once. -/
def requested (state : FlushPipeline) : List Ino :=
  dedupPending (state.worker.stage.batch.filterMap (·.ino))

def fail (state : FlushPipeline) (inos : List Ino) : Ino → FlushOutcome :=
  fun ino => if ino ∈ inos then .failed else state.outcome ino

def isStaged (state : FlushPipeline) (ino : Ino) : Bool :=
  (state.staged ino).isSome

def snapshot (state : FlushPipeline) : Option FlushPipeline :=
  match state.phase with
  | .locked =>
      let items := toFlush state.table state.isStaged state.requested
      let missing := state.requested.filter fun ino =>
        (examine state.table state.isStaged ino).message.isSome
      let examined : FlushPipeline := { state with
        errors := recordMissing state.table state.isStaged state.errors
          state.requested
        outcome := state.fail missing }
      if items.isEmpty then examined.finish
      else some (examined.setPhase (.uploading items []))
  | _ => none

/-- The answer for one chunk.  A failed chunk fails the batch, and an answer of
the wrong length stops the loop by an assertion. -/
def uploadChunk (state : FlushPipeline)
    (answer : Except (List Char) (List XetFileInfo)) : Option FlushPipeline :=
  match state.phase with
  | .uploading items uploads =>
      let chunk := (items.drop uploads.length).take uploadChunkSize
      match answer with
      | .error error =>
          { state with
            errors := recordErrors state.errors items (uploadFailed error)
            outcome := state.fail (items.map FlushItem.ino) }.finish
      | .ok infos =>
          if infos.length = chunk.length then
            let uploads := uploads ++ chunk.zip infos
            some (state.setPhase
              (if items.length ≤ uploads.length then .uploaded uploads
                else .uploading items uploads))
          else state.worker.abort.map fun worker =>
            { state with worker, phase := .idle }
  | _ => none

/-- Files whose content has not changed are cleared before the Hub is asked. -/
def commitUnchanged (state : FlushPipeline) (now : Time) :
    Option FlushPipeline :=
  match state.phase with
  | .uploaded uploads =>
      let cleared := state.setTable
        (applyUploads state.table (unchangedUploads uploads) now)
      if (batchOps uploads).isEmpty then cleared.finish
      else some (cleared.setPhase (.sending uploads))
  | _ => none

/-- The answer of the Hub.  A request that is reported as failed may have been
carried out. -/
def hubAnswer (state : FlushPipeline) (answer : Except (List Char) Unit)
    (applied : Bool) : Option FlushPipeline :=
  match state.phase with
  | .sending uploads =>
      let after := batchOperations state.remote (batchOps uploads)
      match answer with
      | .ok () => some { state with
          remote := after
          phase := .committed uploads }
      | .error error =>
          let items : List FlushItem := (changedUploads uploads).map (·.1)
          { state with
            remote := if applied then after else state.remote
            errors := recordErrors state.errors items (commitFailed error)
            outcome := state.fail (items.map FlushItem.ino) }.finish
  | _ => none

def commit (state : FlushPipeline) (now : Time) : Option FlushPipeline :=
  match state.phase with
  | .committed uploads =>
      (state.setTable
        (applyUploads state.table (changedUploads uploads) now)).finish
  | _ => none

def stop (state : FlushPipeline) : Option FlushPipeline :=
  state.worker.stop.map fun worker => { state with worker }

/-- The drain has taken too long. -/
def abort (state : FlushPipeline) : Option FlushPipeline :=
  state.worker.abort.map fun worker => { state with worker, phase := .idle }

/-! ## Shutdown -/

def shutdownScan (state : FlushPipeline) : Option FlushPipeline :=
  match state.drain with
  | none => some { state with drain := some state.table.dirtyInos }
  | some _ => none

def shutdownSend (state : FlushPipeline) : Option FlushPipeline :=
  state.drain.map fun inos =>
    { inos.foldl enqueue state with drain := some [] }

def shutdownClose (state : FlushPipeline) : Option FlushPipeline :=
  match state.drain with
  | some [] => some { state with
      worker := { state.worker with isOpen := false } }
  | _ => none

def step (state : FlushPipeline) : PipelineEvent → Option FlushPipeline
  | .table op => (state.table.applyOp op).map state.setTable
  | .open id ino truncate now => state.openWrite id ino truncate now
  | .create id parent name fullPath mode uid gid now =>
      state.create id parent name fullPath mode uid gid now
  | .createFails id => state.createFails id
  | .install id fh => state.install id fh
  | .write fh newEnd => state.write fh newEnd
  | .truncate id ino newSize now => state.truncate id ino newSize now
  | .release id fh => state.release id fh
  | .releaseCheck id => state.releaseCheck id
  | .schedule id => state.schedule id
  | .fsync ino => some (state.enqueue ino)
  | .checkError ino => some (state.checkError ino)
  | .stage ino content => some { state with
      staged := Function.update state.staged ino content }
  | .gcOne ino => some (state.gcOne ino)
  | .delete event => state.delete event
  | .receive => state.receive
  | .collect => state.collect
  | .start => state.start
  | .takeDeletes => state.takeDeletes
  | .deletesDone => state.deletesDone
  | .snapshot => state.snapshot
  | .uploadChunk answer => state.uploadChunk answer
  | .commitUnchanged now => state.commitUnchanged now
  | .hubAnswer answer applied => state.hubAnswer answer applied
  | .commit now => state.commit now
  | .stop => state.stop
  | .abort => state.abort
  | .shutdownScan => state.shutdownScan
  | .shutdownSend => state.shutdownSend
  | .shutdownClose => state.shutdownClose

/-- A mount that has just come up over this remote. -/
def new (remote : Remote) : FlushPipeline :=
  { table := .new
    staged := fun _ => none
    writers := []
    op := fun _ => none
    deletes := .new
    worker := .new
    phase := .idle
    errors := fun _ => none
    outcome := fun _ => .none
    remote
    drain := none }

/-! ## What each step does -/

section

variable {state next : FlushPipeline}

theorem openWrite_eq_some {id : CallId} {ino : Ino} {truncate : Bool}
    {now : Time} (stepped : state.openWrite id ino truncate now = some next) :
    ∃ entry, state.op id = none ∧ state.table.get ino = some entry ∧
      next = (state.setTable
        (state.table.put ino (markOpened entry truncate now))).setOp id
          (some (.installing ino)) := by
  unfold openWrite at stepped
  split at stepped
  · rename_i entry free found
    exact ⟨entry, free, found, (Option.some.inj stepped).symm⟩
  · cases stepped

theorem create_eq_some {id : CallId} {parent : Ino} {name : Name}
    {fullPath : Path} {mode uid gid : Nat} {now : Time}
    (stepped : state.create id parent name fullPath mode uid gid now =
      some next) :
    state.op id = none ∧ state.table.isDirectory parent = true ∧
      next = (state.setTable (References.createEntry state.table parent name
        fullPath mode uid gid now).2).setOp id
          (some (.creating (References.createEntry state.table parent name
            fullPath mode uid gid now).1)) := by
  unfold create at stepped
  split at stepped <;> rename_i guard
  · simp only [Bool.and_eq_true, Option.isNone_iff_eq_none] at guard
    exact ⟨guard.1.1, guard.1.2, (Option.some.inj stepped).symm⟩
  · cases stepped

theorem createFails_eq_some {id : CallId}
    (stepped : state.createFails id = some next) :
    ∃ ino, state.op id = some (.creating ino) ∧
      next = (state.setTable (state.table.remove ino)).setOp id none := by
  unfold createFails at stepped
  split at stepped
  · rename_i ino creating
    exact ⟨ino, creating, (Option.some.inj stepped).symm⟩
  · cases stepped

theorem install_eq_some {id : CallId} {fh : FileHandle}
    (stepped : state.install id fh = some next) :
    ∃ op, state.op id = some op ∧
      next = { (state.setTable (state.table.bumpOpenHandles op.ino)).setOp id
          none with
        writers := (fh, op.ino) :: state.writers } := by
  unfold install at stepped
  dsimp only at stepped
  split at stepped
  · rename_i ino creating
    exact ⟨_, creating, (Option.some.inj stepped).symm⟩
  · rename_i ino installing
    exact ⟨_, installing, (Option.some.inj stepped).symm⟩
  · cases stepped

theorem write_eq_some {fh : FileHandle} {newEnd : Nat}
    (stepped : state.write fh newEnd = some next) :
    ∃ ino, (fh, ino) ∈ state.writers ∧
      next = state.setTable
        (state.table.modify ino (markWritten · newEnd)) := by
  obtain ⟨ino, held, rfl⟩ := Option.map_eq_some_iff.mp stepped
  obtain ⟨before, after, listed, _⟩ := List.lookup_eq_some_iff.mp held
  exact ⟨ino, by simp [listed], rfl⟩

theorem truncate_eq_some {id : CallId} {ino : Ino} {newSize : Nat} {now : Time}
    (stepped : state.truncate id ino newSize now = some next) :
    ∃ entry, state.op id = none ∧ state.table.get ino = some entry ∧
      next = (state.setTable (state.table.put ino
        (StagedFile.truncatedEntry entry newSize now))).setOp id
          (some (.scheduling ino)) := by
  unfold truncate at stepped
  split at stepped
  · rename_i entry free found
    exact ⟨entry, free, found, (Option.some.inj stepped).symm⟩
  · cases stepped

theorem release_eq_some {id : CallId} {fh : FileHandle}
    (stepped : state.release id fh = some next) :
    ∃ ino, state.op id = none ∧ state.writers.lookup fh = some ino ∧
      next = { state.setOp id (some (.releasing ino)) with
        writers := state.writers.eraseP (·.1 == fh) } := by
  unfold release at stepped
  split at stepped
  · rename_i ino free held
    exact ⟨ino, free, held, (Option.some.inj stepped).symm⟩
  · cases stepped

theorem releaseCheck_eq_some {id : CallId}
    (stepped : state.releaseCheck id = some next) :
    ∃ ino, state.op id = some (.releasing ino) ∧
      next = state.setOp id
        (if (state.table.get ino).any (·.nlink = 0) then none
          else some (.scheduling ino)) := by
  unfold releaseCheck at stepped
  split at stepped
  · rename_i ino releasing
    exact ⟨ino, releasing, (Option.some.inj stepped).symm⟩
  · cases stepped

theorem schedule_eq_some {id : CallId}
    (stepped : state.schedule id = some next) :
    ∃ ino, state.op id = some (.scheduling ino) ∧
      next = (state.enqueue ino).setOp id none := by
  unfold schedule at stepped
  split at stepped
  · rename_i ino scheduling
    exact ⟨ino, scheduling, (Option.some.inj stepped).symm⟩
  · cases stepped

theorem enqueue_of_accepts (accepts : state.worker.accepts = true) (ino : Ino) :
    state.enqueue ino = { state with
      worker := state.worker.send (.dirty ino)
      outcome := Function.update state.outcome ino .none } := if_pos accepts

theorem enqueue_of_refuses (refuses : state.worker.accepts = false)
    (ino : Ino) : state.enqueue ino = state := by
  simp [enqueue, refuses]

/-- Steps of the delete queue only wake the loop. -/
theorem delete_eq_some {event : DeleteEvent}
    (stepped : state.delete event = some next) :
    ∃ deletes remote worker, state.deletes.step event = some deletes ∧
      (worker = state.worker ∨ worker = state.worker.send .wakeDeletes) ∧
      next = { state with deletes, remote, worker } := by
  obtain ⟨deletes, taken, rfl⟩ := Option.map_eq_some_iff.mp stepped
  cases event with
  | enqueue path => exact ⟨deletes, _, _, taken, Or.inr rfl, rfl⟩
  | hubDone id succeeded =>
      cases succeeded <;> exact ⟨deletes, _, _, taken, Or.inl rfl, rfl⟩
  | cancel _ | cancelPrefix _ | take | hubStart _ | requeue _ =>
      exact ⟨deletes, _, _, taken, Or.inl rfl, rfl⟩

theorem receive_eq_some (stepped : state.receive = some next) :
    ∃ message queue, state.worker.stage = .waiting ∧
      state.worker.queue = message :: queue ∧
      next = { state with worker := { state.worker with
        queue, stage := .collecting [message] } } := by
  obtain ⟨worker, received, rfl⟩ := Option.map_eq_some_iff.mp stepped
  obtain ⟨message, queue, waiting, queued, rfl⟩ :=
    BatchWorker.receive_eq_some received
  exact ⟨message, queue, waiting, queued, rfl⟩

theorem collect_eq_some (stepped : state.collect = some next) :
    ∃ batch message queue, state.worker.stage = .collecting batch ∧
      state.worker.queue = message :: queue ∧
      next = { state with worker := { state.worker with
        queue, stage := .collecting (batch ++ [message]) } } := by
  obtain ⟨worker, collected, rfl⟩ := Option.map_eq_some_iff.mp stepped
  obtain ⟨batch, message, queue, collecting, queued, rfl⟩ :=
    BatchWorker.collect_eq_some collected
  exact ⟨batch, message, queue, collecting, queued, rfl⟩

theorem start_eq_some (stepped : state.start = some next) :
    ∃ batch, state.worker.stage = .collecting batch ∧
      next = { state with
        worker := { state.worker with stage := .working batch }
        phase := .started } := by
  obtain ⟨worker, started, rfl⟩ := Option.map_eq_some_iff.mp stepped
  obtain ⟨batch, collecting, rfl⟩ := BatchWorker.start_eq_some started
  exact ⟨batch, collecting, rfl⟩

theorem finish_eq_some (stepped : state.finish = some next) :
    ∃ batch, state.worker.stage = .working batch ∧
      next = { state with
        worker := { state.worker with
          stage := .waiting
          worked := state.worker.worked ++ [batch] }
        phase := .idle } := by
  obtain ⟨worker, finished, rfl⟩ := Option.map_eq_some_iff.mp stepped
  obtain ⟨batch, working, rfl⟩ := BatchWorker.finish_eq_some finished
  exact ⟨batch, working, rfl⟩

theorem takeDeletes_eq_some (stepped : state.takeDeletes = some next) :
    state.phase = .started ∧ ((state.deletes.takeDeletes = none ∧
        next = state.setPhase .locked) ∨
      ∃ deletes, state.deletes.takeDeletes = some deletes ∧
        next = { state with
          deletes
          phase := .deleting state.deletes.nextBatch }) := by
  unfold takeDeletes at stepped
  split at stepped
  · rename_i started
    refine ⟨started, ?_⟩
    split at stepped
    · rename_i empty
      exact Or.inl ⟨empty, (Option.some.inj stepped).symm⟩
    · rename_i deletes taken
      exact Or.inr ⟨deletes, taken, (Option.some.inj stepped).symm⟩
  · cases stepped

theorem deletesDone_eq_some (stepped : state.deletesDone = some next) :
    ∃ id, state.phase = .deleting id ∧ state.deletes.batch id = none ∧
      next = state.setPhase .locked := by
  unfold deletesDone at stepped
  split at stepped
  · rename_i id deleting
    split at stepped <;> rename_i ends
    · exact ⟨id, deleting, Option.isNone_iff_eq_none.mp ends,
        (Option.some.inj stepped).symm⟩
    · cases stepped
  · cases stepped

/-- The state with what the snapshot has recorded. -/
def examined (state : FlushPipeline) : FlushPipeline :=
  { state with
    errors := recordMissing state.table state.isStaged state.errors
      state.requested
    outcome := state.fail (state.requested.filter fun ino =>
      (examine state.table state.isStaged ino).message.isSome) }

/-- The items of the snapshot. -/
def snapshotItems (state : FlushPipeline) : List FlushItem :=
  toFlush state.table state.isStaged state.requested

theorem snapshot_eq_some (stepped : state.snapshot = some next) :
    state.phase = .locked ∧
      ((state.snapshotItems = [] ∧ state.examined.finish = some next) ∨
        (state.snapshotItems ≠ [] ∧
          next = state.examined.setPhase
            (.uploading state.snapshotItems []))) := by
  unfold snapshot at stepped
  split at stepped
  · rename_i locked
    refine ⟨locked, ?_⟩
    dsimp only at stepped
    split at stepped <;> rename_i empty
    · exact Or.inl ⟨List.isEmpty_iff.mp empty, stepped⟩
    · exact Or.inr ⟨fun none => empty (List.isEmpty_iff.mpr none),
        (Option.some.inj stepped).symm⟩
  · cases stepped

/-- The items that the next upload is for. -/
def nextChunk (items : List FlushItem) (uploads : List Upload) :
    List FlushItem :=
  (items.drop uploads.length).take uploadChunkSize

/-- The state after a failed chunk, before the batch is over. -/
def uploadsFailed (state : FlushPipeline) (items : List FlushItem)
    (error : List Char) : FlushPipeline :=
  { state with
    errors := recordErrors state.errors items (uploadFailed error)
    outcome := state.fail (items.map (·.ino)) }

inductive Uploaded (state : FlushPipeline) (items : List FlushItem)
    (uploads : List Upload) :
    Except (List Char) (List XetFileInfo) → FlushPipeline → Prop where
  | failed {error : List Char} {next : FlushPipeline}
      (ends : (state.uploadsFailed items error).finish = some next) :
      Uploaded state items uploads (.error error) next
  | aborted {infos : List XetFileInfo} {next : FlushPipeline}
      (ends : state.abort = some next) :
      Uploaded state items uploads (.ok infos) next
  | complete {infos : List XetFileInfo}
      (length : infos.length = (nextChunk items uploads).length)
      (all : items.length ≤
        (uploads ++ (nextChunk items uploads).zip infos).length) :
      Uploaded state items uploads (.ok infos) (state.setPhase
        (.uploaded (uploads ++ (nextChunk items uploads).zip infos)))
  | proceeding {infos : List XetFileInfo}
      (length : infos.length = (nextChunk items uploads).length)
      (more : (uploads ++ (nextChunk items uploads).zip infos).length <
        items.length) :
      Uploaded state items uploads (.ok infos) (state.setPhase
        (.uploading items (uploads ++ (nextChunk items uploads).zip infos)))

theorem uploadChunk_eq_some {answer : Except (List Char) (List XetFileInfo)}
    (stepped : state.uploadChunk answer = some next) :
    ∃ items uploads, state.phase = .uploading items uploads ∧
      Uploaded state items uploads answer next := by
  unfold uploadChunk at stepped
  split at stepped
  · rename_i items uploads uploading
    refine ⟨items, uploads, uploading, ?_⟩
    dsimp only at stepped
    split at stepped
    · exact .failed stepped
    · split at stepped <;> rename_i length
      · obtain rfl := Option.some.inj stepped
        split <;> rename_i all
        · exact .complete length all
        · exact .proceeding length (Nat.lt_of_not_le all)
      · exact .aborted stepped
  · cases stepped

/-- The state with the unchanged files cleared. -/
def cleared (state : FlushPipeline) (uploads : List Upload) (now : Time) :
    FlushPipeline :=
  state.setTable (applyUploads state.table (unchangedUploads uploads) now)

theorem commitUnchanged_eq_some {now : Time}
    (stepped : state.commitUnchanged now = some next) :
    ∃ uploads, state.phase = .uploaded uploads ∧
      ((batchOps uploads = [] ∧
          (state.cleared uploads now).finish = some next) ∨
        (batchOps uploads ≠ [] ∧
          next = (state.cleared uploads now).setPhase (.sending uploads))) := by
  unfold commitUnchanged at stepped
  split at stepped
  · rename_i uploads uploaded
    refine ⟨uploads, uploaded, ?_⟩
    dsimp only at stepped
    split at stepped <;> rename_i empty
    · exact Or.inl ⟨List.isEmpty_iff.mp empty, stepped⟩
    · exact Or.inr ⟨fun none => empty (List.isEmpty_iff.mpr none),
        (Option.some.inj stepped).symm⟩
  · cases stepped

/-- The state after a failed Hub request, before the batch is over. -/
def commitsFailed (state : FlushPipeline) (uploads : List Upload)
    (error : List Char) (applied : Bool) : FlushPipeline :=
  { state with
    remote := if applied then batchOperations state.remote (batchOps uploads)
      else state.remote
    errors := recordErrors state.errors ((changedUploads uploads).map (·.1))
      (commitFailed error)
    outcome := state.fail
      (((changedUploads uploads).map (·.1)).map FlushItem.ino) }

theorem hubAnswer_eq_some {answer : Except (List Char) Unit} {applied : Bool}
    (stepped : state.hubAnswer answer applied = some next) :
    ∃ uploads, state.phase = .sending uploads ∧
      ((answer = .ok () ∧ next = { state with
          remote := batchOperations state.remote (batchOps uploads)
          phase := .committed uploads }) ∨
        ∃ error, answer = .error error ∧
          (state.commitsFailed uploads error applied).finish = some next) := by
  unfold hubAnswer at stepped
  split at stepped
  · rename_i uploads sending
    refine ⟨uploads, sending, ?_⟩
    dsimp only at stepped
    split at stepped
    · exact Or.inl ⟨rfl, (Option.some.inj stepped).symm⟩
    · rename_i error
      exact Or.inr ⟨error, rfl, stepped⟩
  · cases stepped

theorem commit_eq_some {now : Time} (stepped : state.commit now = some next) :
    ∃ uploads, state.phase = .committed uploads ∧
      (state.setTable (applyUploads state.table (changedUploads uploads)
        now)).finish = some next := by
  unfold commit at stepped
  split at stepped
  · rename_i uploads committed
    exact ⟨uploads, committed, stepped⟩
  · cases stepped

theorem stop_eq_some (stepped : state.stop = some next) :
    state.worker.stage = .waiting ∧ state.worker.queue = [] ∧
      state.worker.isOpen = false ∧
      next = { state with worker := { state.worker with stage := .stopped } } := by
  obtain ⟨worker, stopped, rfl⟩ := Option.map_eq_some_iff.mp stepped
  obtain ⟨waiting, empty, closed, rfl⟩ := BatchWorker.stop_eq_some stopped
  exact ⟨waiting, empty, closed, rfl⟩

theorem abort_eq_some (stepped : state.abort = some next) :
    state.worker.stage.isOver = false ∧ next = { state with
      worker := { state.worker with
        stage := .aborted state.worker.stage.batch }
      phase := .idle } := by
  obtain ⟨worker, aborted, rfl⟩ := Option.map_eq_some_iff.mp stepped
  obtain ⟨running, rfl⟩ := BatchWorker.abort_eq_some aborted
  exact ⟨running, rfl⟩

theorem shutdownScan_eq_some (stepped : state.shutdownScan = some next) :
    state.drain = none ∧
      next = { state with drain := some state.table.dirtyInos } := by
  unfold shutdownScan at stepped
  split at stepped
  · rename_i fresh
    exact ⟨fresh, (Option.some.inj stepped).symm⟩
  · cases stepped

theorem shutdownClose_eq_some (stepped : state.shutdownClose = some next) :
    state.drain = some [] ∧ next = { state with
      worker := { state.worker with isOpen := false } } := by
  unfold shutdownClose at stepped
  split at stepped
  · rename_i sent
    exact ⟨sent, (Option.some.inj stepped).symm⟩
  · cases stepped

/-- What the loop has noted before it goes on. -/
inductive Prepared (state : FlushPipeline) : FlushPipeline → Prop where
  | same : Prepared state state
  | examined : Prepared state state.examined
  | uploadsFailed (items : List FlushItem) (error : List Char) :
      Prepared state (state.uploadsFailed items error)
  | applied (uploads : List Upload) (now : Time) :
      Prepared state (state.setTable (applyUploads state.table uploads now))
  | sent (remote : Remote) : Prepared state { state with remote }
  | commitsFailed (uploads : List Upload) (error : List Char)
      (applied : Bool) :
      Prepared state (state.commitsFailed uploads error applied)

/-- What a step of the loop is: one on the channel, one within the batch, or
the end of the batch. -/
inductive Work (state : FlushPipeline) : FlushPipeline → Prop where
  | channel {event : WorkerEvent FlushSignal}
      {worker : BatchWorker FlushSignal} (own : event ≠ .close)
      (moved : state.worker.step event = some worker) (phase : BatchPhase) :
      Work state { state with worker, phase }
  | within {before : FlushPipeline} (prepared : Prepared state before)
      (deletes : FlushManager) (phase : BatchPhase) :
      Work state { before with deletes, phase }
  | ends {before next : FlushPipeline} (prepared : Prepared state before)
      (ends : before.finish = some next) : Work state next

theorem work_of_abort (stepped : state.abort = some next) :
    Work state next := by
  obtain ⟨worker, aborted, rfl⟩ := Option.map_eq_some_iff.mp stepped
  exact @Work.channel _ .abort _ nofun aborted _

theorem work_of_step {event : PipelineEvent} (isWork : event.isWork = true)
    (stepped : state.step event = some next) : Work state next := by
  cases event with
  | receive =>
      obtain ⟨worker, received, rfl⟩ := Option.map_eq_some_iff.mp stepped
      exact @Work.channel _ .receive _ nofun received _
  | collect =>
      obtain ⟨worker, collected, rfl⟩ := Option.map_eq_some_iff.mp stepped
      exact @Work.channel _ .collect _ nofun collected _
  | start =>
      obtain ⟨worker, started, rfl⟩ := Option.map_eq_some_iff.mp stepped
      exact @Work.channel _ .start _ nofun started _
  | stop =>
      obtain ⟨worker, stopped, rfl⟩ := Option.map_eq_some_iff.mp stepped
      exact @Work.channel _ .stop _ nofun stopped _
  | takeDeletes =>
      obtain ⟨_, ⟨_, rfl⟩ | ⟨_, _, rfl⟩⟩ := takeDeletes_eq_some stepped
      · exact .within .same _ _
      · exact .within .same _ _
  | deletesDone =>
      obtain ⟨_, _, _, rfl⟩ := deletesDone_eq_some stepped
      exact .within .same _ _
  | snapshot =>
      obtain ⟨_, ⟨_, ends⟩ | ⟨_, rfl⟩⟩ := snapshot_eq_some stepped
      · exact .ends .examined ends
      · exact .within .examined _ _
  | uploadChunk answer =>
      obtain ⟨_, _, _, uploaded⟩ := uploadChunk_eq_some stepped
      cases uploaded with
      | failed ends => exact .ends (.uploadsFailed _ _) ends
      | aborted ends => exact work_of_abort ends
      | complete _ _ => exact .within .same _ _
      | proceeding _ _ => exact .within .same _ _
  | commitUnchanged now =>
      obtain ⟨_, _, ⟨_, ends⟩ | ⟨_, rfl⟩⟩ := commitUnchanged_eq_some stepped
      · exact .ends (.applied _ now) ends
      · exact .within (.applied _ now) _ _
  | hubAnswer answer applied =>
      obtain ⟨uploads, _, ⟨_, rfl⟩ | ⟨_, _, ends⟩⟩ := hubAnswer_eq_some stepped
      · exact .within (.sent (batchOperations state.remote (batchOps uploads)))
          _ _
      · exact .ends (.commitsFailed _ _ applied) ends
  | commit now =>
      obtain ⟨_, _, ends⟩ := commit_eq_some stepped
      exact .ends (.applied _ now) ends
  | _ => cases isWork

/-- What a step is that the loop does not make. -/
inductive Aside (state : FlushPipeline) :
    PipelineEvent → FlushPipeline → Prop where
  | mark {event : PipelineEvent} (isMark : event.isMark = true)
      (table : InodeTable) (writers : List (FileHandle × Ino))
      (op : CallId → Option WriterOp) :
      Aside state event { state with table, writers, op }
  | call {event : PipelineEvent} (other : event.isShutdown = false)
      (staged : Ino → Option Bytes) (writers : List (FileHandle × Ino))
      (op : CallId → Option WriterOp) :
      Aside state event { state with staged, writers, op }
  | told (ino : Ino) : Aside state (.checkError ino) (state.checkError ino)
  | request {event : PipelineEvent} (other : event.isShutdown = false)
      (ino : Ino) (op : CallId → Option WriterOp) :
      Aside state event { state.enqueue ino with op }
  | delete {event : DeleteEvent} {deletes : FlushManager} {remote : Remote}
      {worker : BatchWorker FlushSignal}
      (taken : state.deletes.step event = some deletes)
      (sent : worker = state.worker ∨ worker = state.worker.send .wakeDeletes) :
      Aside state (.delete event) { state with deletes, remote, worker }
  | abort (running : state.worker.stage.isOver = false) :
      Aside state .abort { state with
        worker := { state.worker with
          stage := .aborted state.worker.stage.batch }
        phase := .idle }
  | scan (fresh : state.drain = none) : Aside state .shutdownScan
      { state with drain := some state.table.dirtyInos }
  | send {inos : List Ino} (listed : state.drain = some inos) :
      Aside state .shutdownSend
        { inos.foldl enqueue state with drain := some [] }
  | close (sent : state.drain = some []) : Aside state .shutdownClose
      { state with worker := { state.worker with isOpen := false } }

theorem aside_of_step {event : PipelineEvent} (isWork : event.isWork = false)
    (stepped : state.step event = some next) : Aside state event next := by
  cases event with
  | receive | collect | start | takeDeletes | deletesDone | snapshot
  | uploadChunk _ | commitUnchanged _ | hubAnswer _ _ | commit _ | stop =>
      cases isWork
  | table op =>
      obtain ⟨table, _, rfl⟩ := Option.map_eq_some_iff.mp stepped
      exact .mark rfl table _ _
  | «open» id ino truncate now =>
      obtain ⟨_, _, _, rfl⟩ := openWrite_eq_some stepped
      exact .mark rfl _ _ _
  | create id parent name fullPath mode uid gid now =>
      obtain ⟨_, _, rfl⟩ := create_eq_some stepped
      exact .mark rfl _ _ _
  | createFails id =>
      obtain ⟨_, _, rfl⟩ := createFails_eq_some stepped
      exact .mark rfl _ _ _
  | install id fh =>
      obtain ⟨_, _, rfl⟩ := install_eq_some stepped
      exact .mark rfl _ _ _
  | write fh newEnd =>
      obtain ⟨_, _, rfl⟩ := write_eq_some stepped
      exact .mark rfl _ _ _
  | truncate id ino newSize now =>
      obtain ⟨_, _, _, rfl⟩ := truncate_eq_some stepped
      exact .mark rfl _ _ _
  | release id fh =>
      obtain ⟨_, _, _, rfl⟩ := release_eq_some stepped
      exact .call rfl _ _ _
  | releaseCheck id =>
      obtain ⟨_, _, rfl⟩ := releaseCheck_eq_some stepped
      exact .call rfl _ _ _
  | stage ino content =>
      obtain rfl := Option.some.inj stepped
      exact .call rfl _ _ _
  | gcOne ino =>
      obtain rfl := Option.some.inj stepped
      unfold gcOne
      split <;> exact .call rfl _ _ _
  | schedule id =>
      obtain ⟨ino, _, rfl⟩ := schedule_eq_some stepped
      exact .request rfl ino _
  | fsync ino =>
      obtain rfl := Option.some.inj stepped
      exact .request rfl ino _
  | checkError ino =>
      obtain rfl := Option.some.inj stepped
      exact .told ino
  | delete event =>
      obtain ⟨_, _, _, taken, sent, rfl⟩ := delete_eq_some stepped
      exact .delete taken sent
  | abort =>
      obtain ⟨running, rfl⟩ := abort_eq_some stepped
      exact .abort running
  | shutdownScan =>
      obtain ⟨fresh, rfl⟩ := shutdownScan_eq_some stepped
      exact .scan fresh
  | shutdownSend =>
      obtain ⟨inos, listed, rfl⟩ := Option.map_eq_some_iff.mp stepped
      exact .send listed
  | shutdownClose =>
      obtain ⟨sent, rfl⟩ := shutdownClose_eq_some stepped
      exact .close sent

end

end FlushPipeline

end HfMount.Flush
