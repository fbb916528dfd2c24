import HfMount.Flush.Pipeline

/-!
# Requests are handled once, in order

Whatever the loop and the file system do, the channel of the flush loop is that
of a worker that takes its messages in batches.  So every request that was
accepted is in one batch, in the order of the requests, or still on its way.
-/

namespace HfMount.Flush

open Inode Vfs Streaming Transition

namespace FlushPipeline

section

variable {state next : FlushPipeline}

/-- The channel and the loop have made these steps. -/
def Works (state next : FlushPipeline)
    (events : List (WorkerEvent FlushSignal)) : Prop :=
  exec BatchWorker.step state.worker events = some next.worker

theorem works_of_same (same : next.worker = state.worker) :
    Works state next [] := by
  rw [Works, exec_nil, same]

theorem works_of_step {event : WorkerEvent FlushSignal}
    (stepped : state.worker.step event = some next.worker) :
    Works state next [event] :=
  exec_cons_iff.mpr ⟨next.worker, stepped, rfl⟩

theorem works_enqueue (state : FlushPipeline) (ino : Ino) :
    Works state (state.enqueue ino) [.send (.dirty ino)] := by
  apply works_of_step
  cases accepts : state.worker.accepts with
  | true => rw [enqueue_of_accepts accepts]; rfl
  | false =>
      rw [enqueue_of_refuses accepts]
      exact congrArg some (BatchWorker.send_of_refuses accepts _)

theorem works_shutdownSend (inos : List Ino) (state : FlushPipeline) :
    Works state (inos.foldl enqueue state)
      (inos.map fun ino => .send (.dirty ino)) := by
  induction inos generalizing state with
  | nil => exact works_of_same rfl
  | cons ino inos ih =>
      have first := works_enqueue state ino
      have rest := ih (state.enqueue ino)
      exact exec_append_iff.mpr ⟨_, first, rest⟩

theorem works_finish (stepped : state.finish = some next) :
    Works state next [.finish] := by
  apply works_of_step
  obtain ⟨worker, finished, rfl⟩ := Option.map_eq_some_iff.mp stepped
  exact finished

theorem worker_of_prepared {before : FlushPipeline}
    (prepared : Prepared state before) : before.worker = state.worker := by
  cases prepared with
  | same | examined | uploadsFailed | applied | sent | commitsFailed => rfl

theorem Aside.exists_works {event : PipelineEvent}
    (aside : Aside state event next) : ∃ events, Works state next events := by
  cases aside with
  | mark | call | told | scan => exact ⟨[], works_of_same rfl⟩
  | request other ino op =>
      have works := works_enqueue state ino
      exact ⟨_, works⟩
  | delete taken sent =>
      rcases sent with rfl | rfl
      · exact ⟨[], works_of_same rfl⟩
      · exact ⟨[.send .wakeDeletes], works_of_step rfl⟩
  | abort running =>
      refine ⟨[.abort], works_of_step ?_⟩
      rw [BatchWorker.step, BatchWorker.abort, running]
      rfl
  | @send inos listed =>
      have works := works_shutdownSend inos state
      exact ⟨_, works⟩
  | close => exact ⟨[.close], works_of_step rfl⟩

/-- Every step of the pipeline is some steps of the channel and the loop. -/
theorem exists_works {event : PipelineEvent}
    (stepped : state.step event = some next) :
    ∃ events, Works state next events := by
  cases isWork : event.isWork with
  | false => exact (aside_of_step isWork stepped).exists_works
  | true =>
      cases work_of_step isWork stepped with
      | channel _ moved _ => exact ⟨_, works_of_step moved⟩
      | within prepared _ _ =>
          have same := worker_of_prepared prepared
          exact ⟨[], works_of_same same⟩
      | ends prepared ends =>
          have works := works_finish ends
          rw [Works, worker_of_prepared prepared] at works
          exact ⟨_, works⟩

end

/-! ## Runs -/

theorem conserved_of_step {state next : FlushPipeline} {event : PipelineEvent}
    (conserved : state.worker.Conserved)
    (stepped : state.step event = some next) : next.worker.Conserved := by
  obtain ⟨events, works⟩ := exists_works stepped
  exact exec_invariant_of_step (fun _ _ _ => .step) conserved works

/-- A channel that takes no message never takes one again. -/
theorem accepts_of_step {state next : FlushPipeline} {event : PipelineEvent}
    (stepped : state.step event = some next)
    (accepts : next.worker.accepts = true) : state.worker.accepts = true := by
  obtain ⟨events, works⟩ := exists_works stepped
  apply Bool.not_eq_false _ |>.mp
  intro refuses
  have still := exec_invariant_of_step
    (fun _ _ _ => BatchWorker.refuses_of_step) refuses works
  rw [accepts] at still
  cases still

/-- A loop that is over stays as it is. -/
theorem stage_of_step {state next : FlushPipeline} {event : PipelineEvent}
    (ends : state.worker.stage.isOver = true)
    (stepped : state.step event = some next) :
    next.worker.stage = state.worker.stage := by
  obtain ⟨events, works⟩ := exists_works stepped
  have kept : ∀ (worker : BatchWorker FlushSignal) event later,
      worker.stage = state.worker.stage → worker.step event = some later →
      later.stage = state.worker.stage := by
    intro worker event later same ran
    have still : worker.stage.isOver = true := same ▸ ends
    exact (BatchWorker.isOver_of_step still ran).trans same
  exact exec_invariant_of_step kept rfl works

/-- In every run, the accepted requests are those of the batches that are over,
of the batch at hand and of the queue, in their order; once the loop has
stopped, all of them have been in one batch. -/
theorem requests_handled_once {remote : Remote} {events : List PipelineEvent}
    {final : FlushPipeline} (run : exec step (new remote) events = some final) :
    final.worker.accepted = final.worker.worked.flatten ++
        final.worker.stage.batch ++ final.worker.queue ∧
      (final.worker.stage = .stopped →
        final.worker.worked.flatten = final.worker.accepted) := by
  have conserved : final.worker.Conserved :=
    exec_invariant_of_step (fun _ _ _ => conserved_of_step)
      BatchWorker.conserved_new run
  exact ⟨conserved.accepted, conserved.all_worked⟩

/-- A file is written and released. -/
def oneFile : List PipelineEvent :=
  [.create 0 rootInode ['a'] ['a'] 0 0 0 1, .install 0 1, .write 1 5,
    .release 0 1, .releaseCheck 0, .schedule 0]

/-- The drain after it. -/
def oneFileDrain : List PipelineEvent :=
  [.shutdownSend, .shutdownClose, .receive, .collect, .start, .takeDeletes,
    .snapshot, .stop]

/-- The state at the end of a run on an empty remote. -/
def ranFrom (events : List PipelineEvent)
    (ran : (exec step (new fun _ => none) events).isSome) : FlushPipeline :=
  (exec step (new fun _ => none) events).get ran

theorem requests_handled_once_one_file :
    (ranFrom (oneFile ++ .shutdownScan :: oneFileDrain) rfl).worker.worked.flatten
      = [.dirty 2, .dirty 2] :=
  (requests_handled_once (Option.some_get _).symm).2 rfl

end FlushPipeline

end HfMount.Flush
