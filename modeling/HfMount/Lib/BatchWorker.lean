import HfMount.Lib.Transition

/-!
# A worker that takes its messages in batches

Senders put messages into an unbounded queue as long as it is open.  One worker
waits for a message, goes on collecting for a while, and then works on all that
it has before it waits again.  It stops when the queue is closed and empty, or
it is aborted.  What is accepted is worked on once, in order.
-/

namespace HfMount

open Transition

/-- Where the worker is, with the batch that it holds. -/
inductive WorkerStage (α : Type) where
  | waiting
  | collecting (batch : List α)
  | working (batch : List α)
  | stopped
  | aborted (batch : List α)
  deriving DecidableEq

/-- The messages that the worker has taken and not yet done. -/
@[simp] def WorkerStage.batch {α : Type} : WorkerStage α → List α
  | .waiting | .stopped => []
  | .collecting batch | .working batch | .aborted batch => batch

/-- The worker will not take another message. -/
def WorkerStage.isOver {α : Type} : WorkerStage α → Bool
  | .stopped | .aborted _ => true
  | .waiting | .collecting _ | .working _ => false

def WorkerStage.isAborted {α : Type} : WorkerStage α → Bool
  | .aborted _ => true
  | .waiting | .collecting _ | .working _ | .stopped => false

/-- `accepted` has every message that was ever queued and `worked` the batches
that are done, both with the oldest first. -/
structure BatchWorker (α : Type) where
  isOpen : Bool
  queue : List α
  stage : WorkerStage α
  accepted : List α
  worked : List (List α)

inductive WorkerEvent (α : Type) where
  | send (message : α)
  | close
  | receive
  | collect
  /-- The worker has waited long enough for more messages. -/
  | start
  | finish
  | stop
  | abort
  deriving DecidableEq

namespace BatchWorker

variable {α : Type}

def new : BatchWorker α :=
  { isOpen := true
    queue := []
    stage := .waiting
    accepted := []
    worked := [] }

/-- A message to a closed queue, or to a worker that is gone, is dropped. -/
def accepts (worker : BatchWorker α) : Bool :=
  worker.isOpen && !worker.stage.isOver

def send (worker : BatchWorker α) (message : α) : BatchWorker α :=
  if worker.accepts then
    { worker with
      queue := worker.queue ++ [message]
      accepted := worker.accepted ++ [message] }
  else worker

def receive (worker : BatchWorker α) : Option (BatchWorker α) :=
  match worker.stage, worker.queue with
  | .waiting, message :: queue =>
      some { worker with queue, stage := .collecting [message] }
  | _, _ => none

def collect (worker : BatchWorker α) : Option (BatchWorker α) :=
  match worker.stage, worker.queue with
  | .collecting batch, message :: queue =>
      some { worker with queue, stage := .collecting (batch ++ [message]) }
  | _, _ => none

def start (worker : BatchWorker α) : Option (BatchWorker α) :=
  match worker.stage with
  | .collecting batch => some { worker with stage := .working batch }
  | _ => none

def finish (worker : BatchWorker α) : Option (BatchWorker α) :=
  match worker.stage with
  | .working batch =>
      some { worker with stage := .waiting, worked := worker.worked ++ [batch] }
  | _ => none

def stop (worker : BatchWorker α) : Option (BatchWorker α) :=
  match worker.stage, worker.queue, worker.isOpen with
  | .waiting, [], false => some { worker with stage := .stopped }
  | _, _, _ => none

def abort (worker : BatchWorker α) : Option (BatchWorker α) :=
  if worker.stage.isOver then none
  else some { worker with stage := .aborted worker.stage.batch }

def step (worker : BatchWorker α) : WorkerEvent α → Option (BatchWorker α)
  | .send message => some (worker.send message)
  | .close => some { worker with isOpen := false }
  | .receive => worker.receive
  | .collect => worker.collect
  | .start => worker.start
  | .finish => worker.finish
  | .stop => worker.stop
  | .abort => worker.abort

/-! ## What each step does -/

section

variable {worker next : BatchWorker α}

theorem not_aborted_of_accepts (accepts : worker.accepts = true) :
    worker.stage.isAborted = false := by
  cases stage : worker.stage with
  | aborted batch =>
      simp [BatchWorker.accepts, stage, WorkerStage.isOver] at accepts
  | waiting | collecting _ | working _ | stopped => rfl

theorem send_of_accepts (accepts : worker.accepts = true) (message : α) :
    worker.send message = { worker with
      queue := worker.queue ++ [message]
      accepted := worker.accepted ++ [message] } := if_pos accepts

theorem send_of_refuses (refuses : worker.accepts = false) (message : α) :
    worker.send message = worker := by
  simp [send, refuses]

@[simp] theorem stage_send (message : α) :
    (worker.send message).stage = worker.stage := by
  unfold send
  split <;> rfl

@[simp] theorem isOpen_send (message : α) :
    (worker.send message).isOpen = worker.isOpen := by
  unfold send
  split <;> rfl

@[simp] theorem accepts_send (message : α) :
    (worker.send message).accepts = worker.accepts := by
  simp [accepts]

theorem mem_queue_send {message other : α} (queued : other ∈ worker.queue) :
    other ∈ (worker.send message).queue := by
  unfold send
  split
  · exact List.mem_append_left _ queued
  · exact queued

theorem receive_eq_some (stepped : worker.receive = some next) :
    ∃ message queue, worker.stage = .waiting ∧
      worker.queue = message :: queue ∧
      next = { worker with queue, stage := .collecting [message] } := by
  unfold receive at stepped
  split at stepped
  · rename_i message queue waiting queued
    exact ⟨message, queue, waiting, queued, (Option.some.inj stepped).symm⟩
  · cases stepped

theorem collect_eq_some (stepped : worker.collect = some next) :
    ∃ batch message queue, worker.stage = .collecting batch ∧
      worker.queue = message :: queue ∧
      next = { worker with queue, stage := .collecting (batch ++ [message]) } := by
  unfold collect at stepped
  split at stepped
  · rename_i batch message queue collecting queued
    exact ⟨batch, message, queue, collecting, queued,
      (Option.some.inj stepped).symm⟩
  · cases stepped

theorem start_eq_some (stepped : worker.start = some next) :
    ∃ batch, worker.stage = .collecting batch ∧
      next = { worker with stage := .working batch } := by
  unfold start at stepped
  split at stepped
  · rename_i batch collecting
    exact ⟨batch, collecting, (Option.some.inj stepped).symm⟩
  · cases stepped

theorem finish_eq_some (stepped : worker.finish = some next) :
    ∃ batch, worker.stage = .working batch ∧
      next = { worker with
        stage := .waiting
        worked := worker.worked ++ [batch] } := by
  unfold finish at stepped
  split at stepped
  · rename_i batch working
    exact ⟨batch, working, (Option.some.inj stepped).symm⟩
  · cases stepped

theorem stop_eq_some (stepped : worker.stop = some next) :
    worker.stage = .waiting ∧ worker.queue = [] ∧ worker.isOpen = false ∧
      next = { worker with stage := .stopped } := by
  unfold stop at stepped
  split at stepped
  · rename_i waiting empty closed
    exact ⟨waiting, empty, closed, (Option.some.inj stepped).symm⟩
  · cases stepped

theorem abort_eq_some (stepped : worker.abort = some next) :
    worker.stage.isOver = false ∧
      next = { worker with stage := .aborted worker.stage.batch } := by
  unfold abort at stepped
  split at stepped <;> rename_i ends
  · cases stepped
  · exact ⟨Bool.eq_false_iff.mpr ends, (Option.some.inj stepped).symm⟩

end

/-! ## Nothing is lost, doubled or overtaken -/

/-- The accepted messages are those of the batches that are done, of the batch
at hand and of the queue, in this order. -/
structure Conserved (worker : BatchWorker α) : Prop where
  accepted : worker.accepted =
    worker.worked.flatten ++ worker.stage.batch ++ worker.queue
  stopped : worker.stage = .stopped → worker.queue = [] ∧ worker.isOpen = false

theorem conserved_new : (new : BatchWorker α).Conserved := by
  constructor
  · rfl
  · intro stopped
    cases stopped

theorem Conserved.step {worker next : BatchWorker α} {event : WorkerEvent α}
    (conserved : worker.Conserved) (stepped : worker.step event = some next) :
    next.Conserved := by
  cases event with
  | send message =>
      obtain rfl := Option.some.inj stepped
      cases accepts : worker.accepts with
      | false =>
          rw [send_of_refuses accepts]
          exact conserved
      | true =>
          rw [send_of_accepts accepts]
          constructor
          · simp [conserved.accepted]
          · intro stopped
            simp [BatchWorker.accepts, show worker.stage = .stopped from stopped,
              WorkerStage.isOver] at accepts
  | close =>
      obtain rfl := Option.some.inj stepped
      exact ⟨conserved.accepted, fun stopped => ⟨(conserved.stopped stopped).1,
        rfl⟩⟩
  | receive =>
      obtain ⟨message, queue, waiting, queued, rfl⟩ := receive_eq_some stepped
      constructor
      · simp [conserved.accepted, waiting, queued]
      · intro stopped
        cases stopped
  | collect =>
      obtain ⟨batch, message, queue, collecting, queued, rfl⟩ :=
        collect_eq_some stepped
      constructor
      · simp [conserved.accepted, collecting, queued]
      · intro stopped
        cases stopped
  | start =>
      obtain ⟨batch, collecting, rfl⟩ := start_eq_some stepped
      constructor
      · simp [conserved.accepted, collecting]
      · intro stopped
        cases stopped
  | finish =>
      obtain ⟨batch, working, rfl⟩ := finish_eq_some stepped
      constructor
      · simp [conserved.accepted, working]
      · intro stopped
        cases stopped
  | stop =>
      obtain ⟨waiting, empty, closed, rfl⟩ := stop_eq_some stepped
      constructor
      · simp [conserved.accepted, waiting]
      · exact fun _ => ⟨empty, closed⟩
  | abort =>
      obtain ⟨running, rfl⟩ := abort_eq_some stepped
      constructor
      · simp [conserved.accepted]
      · intro stopped
        cases stopped

/-- The queue is only closed by a close. -/
theorem isOpen_of_step {worker next : BatchWorker α} {event : WorkerEvent α}
    (other : event ≠ .close) (stepped : worker.step event = some next) :
    next.isOpen = worker.isOpen := by
  cases event with
  | send message =>
      obtain rfl := Option.some.inj stepped
      exact isOpen_send message
  | close => exact absurd rfl other
  | receive =>
      obtain ⟨_, _, _, _, rfl⟩ := receive_eq_some stepped
      rfl
  | collect =>
      obtain ⟨_, _, _, _, _, rfl⟩ := collect_eq_some stepped
      rfl
  | start =>
      obtain ⟨_, _, rfl⟩ := start_eq_some stepped
      rfl
  | finish =>
      obtain ⟨_, _, rfl⟩ := finish_eq_some stepped
      rfl
  | stop =>
      obtain ⟨_, _, _, rfl⟩ := stop_eq_some stepped
      rfl
  | abort =>
      obtain ⟨_, rfl⟩ := abort_eq_some stepped
      rfl

/-- What is over stays over. -/
theorem isOver_of_step {worker next : BatchWorker α} {event : WorkerEvent α}
    (ends : worker.stage.isOver = true)
    (stepped : worker.step event = some next) : next.stage = worker.stage := by
  cases event with
  | send message =>
      obtain rfl := Option.some.inj stepped
      exact stage_send message
  | close =>
      obtain rfl := Option.some.inj stepped
      rfl
  | receive =>
      obtain ⟨_, _, waiting, _, _⟩ := receive_eq_some stepped
      rw [waiting] at ends
      cases ends
  | collect =>
      obtain ⟨_, _, _, collecting, _, _⟩ := collect_eq_some stepped
      rw [collecting] at ends
      cases ends
  | start =>
      obtain ⟨_, collecting, _⟩ := start_eq_some stepped
      rw [collecting] at ends
      cases ends
  | finish =>
      obtain ⟨_, working, _⟩ := finish_eq_some stepped
      rw [working] at ends
      cases ends
  | stop =>
      obtain ⟨waiting, _⟩ := stop_eq_some stepped
      rw [waiting] at ends
      cases ends
  | abort =>
      obtain ⟨running, _⟩ := abort_eq_some stepped
      rw [ends] at running
      cases running

/-- A queue that takes no message never takes one again. -/
theorem refuses_of_step {worker next : BatchWorker α} {event : WorkerEvent α}
    (refuses : worker.accepts = false)
    (stepped : worker.step event = some next) : next.accepts = false := by
  by_contra accepts
  obtain ⟨opened, running⟩ :=
    Bool.and_eq_true_iff.mp (Bool.not_eq_false _ |>.mp accepts)
  have other : event ≠ .close := by
    rintro rfl
    obtain rfl := Option.some.inj stepped
    cases opened
  rw [isOpen_of_step other stepped] at opened
  rw [BatchWorker.accepts, opened, Bool.true_and, Bool.not_eq_false'] at refuses
  rw [isOver_of_step refuses stepped, refuses] at running
  cases running

/-- A worker that has stopped has worked on everything that was accepted. -/
theorem Conserved.all_worked {worker : BatchWorker α}
    (conserved : worker.Conserved) (stopped : worker.stage = .stopped) :
    worker.worked.flatten = worker.accepted := by
  rw [conserved.accepted, stopped, (conserved.stopped stopped).1]
  simp

end BatchWorker

end HfMount
