import HfMount.Flush.Accounted
import HfMount.Flush.Requests

/-!
# No dirty file is forgotten

In every run, a dirty file that has a link is in somebody's hands, or its flush
is on the way, or the last flush has failed.  And once the shutdown has found
the dirty files, a loop that comes to its end has flushed them or has failed.
-/

namespace HfMount.Flush

open Inode Vfs Streaming Transition

namespace FlushPipeline

section

variable {state next : FlushPipeline}

/-- The loop does not concern the handles, the calls and the shutdown. -/
theorem calls_of_work {event : PipelineEvent} (isWork : event.isWork = true)
    (stepped : state.step event = some next) :
    next.writers = state.writers ∧ next.op = state.op ∧
      next.drain = state.drain ∧
      next.worker.isOpen = state.worker.isOpen := by
  have kept : ∀ {before}, Prepared state before →
      before.writers = state.writers ∧ before.op = state.op ∧
        before.drain = state.drain ∧
        before.worker.isOpen = state.worker.isOpen := by
    intro before prepared
    cases prepared with
    | same | examined | uploadsFailed | applied | sent | commitsFailed =>
        exact ⟨rfl, rfl, rfl, rfl⟩
  cases work_of_step isWork stepped with
  | channel own moved _ =>
      exact ⟨rfl, rfl, rfl, BatchWorker.isOpen_of_step own moved⟩
  | within prepared _ _ =>
      have same := kept prepared
      exact same
  | ends prepared ends =>
      have same := kept prepared
      obtain ⟨_, _, rfl⟩ := finish_eq_some ends
      exact same

theorem Accounted.mono {excused other : Ino → Prop}
    (accounted : state.Accounted excused)
    (excuses : ∀ ino, excused ino → other ino) : state.Accounted other := by
  intro ino entry found file linked dirty
  exact (accounted ino entry found file linked dirty).imp_left (excuses ino)

/-- Requests only concern the channel and the outcomes. -/
theorem foldl_enqueue_eq (inos : List Ino) (state : FlushPipeline) :
    ∃ worker outcome,
      inos.foldl enqueue state = { state with worker, outcome } := by
  induction inos generalizing state with
  | nil => exact ⟨state.worker, state.outcome, rfl⟩
  | cons ino inos ih =>
      obtain ⟨worker, outcome, rest⟩ := ih (state.enqueue ino)
      refine ⟨worker, outcome, ?_⟩
      rw [List.foldl_cons, rest, enqueue]
      split <;> rfl

theorem table_enqueue (inos : List Ino) (state : FlushPipeline) :
    (inos.foldl enqueue state).table = state.table := by
  obtain ⟨worker, outcome, same⟩ := foldl_enqueue_eq inos state
  rw [same]

/-- An error of the last flush that nobody has taken is there. -/
def Noted (state : FlushPipeline) : Prop :=
  ∀ ino, state.outcome ino = .failed → (state.errors ino).isSome

/-- While requests are taken, no step loses a dirty file. -/
theorem Accounted.step {event : PipelineEvent} (calm : event.IsCalm)
    (stepped : state.step event = some next)
    (accepts : next.worker.accepts = true) (consistent : state.Consistent)
    (accounted : state.Accounted state.Excused) :
    next.Accounted next.Excused := by
  have acceptsBefore := accepts_of_step stepped accepts
  by_cases isWork : event.isWork = true
  · obtain ⟨writers, op, _, _⟩ := calls_of_work isWork stepped
    have running := BatchWorker.not_aborted_of_accepts accepts
    exact (accounted.work isWork stepped running consistent).mono
      fun ino excused => excused.of_same writers op
  cases event with
  | receive | collect | start | takeDeletes | deletesDone | snapshot
  | uploadChunk _ | commitUnchanged _ | hubAnswer _ _ | commit _ | stop =>
      exact absurd rfl isWork
  | table op =>
      obtain ⟨table, applied, rfl⟩ := Option.map_eq_some_iff.mp stepped
      refine accounted.forward (forward_of_same rfl rfl rfl)
        (InodeTable.undirtied_applyOp calm applied) ?_
      exact fun ino _ _ _ excused => Or.inl (excused.of_same rfl rfl)
  | «open» id ino truncate now =>
      obtain ⟨entry, free, found, rfl⟩ := openWrite_eq_some stepped
      refine accounted.marks _ _ free ?_
      exact fun target other => InodeTable.get_put_of_ne _ other _
  | create id parent name fullPath mode uid gid now =>
      exact accounted.create stepped
  | createFails id => exact accounted.createFails stepped
  | install id fh => exact accounted.install stepped
  | write fh newEnd => exact accounted.write stepped
  | truncate id ino newSize now =>
      obtain ⟨entry, free, found, rfl⟩ := truncate_eq_some stepped
      refine accounted.marks _ _ free ?_
      exact fun target other => InodeTable.get_put_of_ne _ other _
  | release id fh => exact accounted.release stepped
  | releaseCheck id => exact accounted.releaseCheck stepped
  | schedule id => exact accounted.schedule acceptsBefore stepped
  | fsync ino =>
      obtain rfl := Option.some.inj stepped
      refine accounted.same_calls (forward_enqueue state ino) ?_ ?_ ?_
      all_goals rw [enqueue_of_accepts acceptsBefore]
  | checkError ino =>
      obtain rfl := Option.some.inj stepped
      exact accounted.same_calls (forward_checkError state ino) rfl rfl rfl
  | stage ino content =>
      obtain rfl := Option.some.inj stepped
      exact accounted.same_calls (forward_of_same rfl rfl rfl) rfl rfl rfl
  | gcOne ino =>
      obtain rfl := Option.some.inj stepped
      unfold gcOne
      split
      · exact accounted.same_calls (forward_of_same rfl rfl rfl) rfl rfl rfl
      · exact accounted
  | delete event =>
      obtain ⟨_, _, worker, _, isSent, rfl⟩ := delete_eq_some stepped
      rcases isSent with rfl | rfl
      · exact accounted.same_calls (forward_of_same rfl rfl rfl) rfl rfl rfl
      · refine accounted.same_calls ⟨rfl, by simp,
          fun _ => BatchWorker.mem_queue_send, fun _ => Or.inl⟩ rfl rfl rfl
  | abort =>
      obtain ⟨_, rfl⟩ := abort_eq_some stepped
      simp [BatchWorker.accepts, WorkerStage.isOver] at accepts
  | shutdownScan =>
      obtain ⟨_, rfl⟩ := shutdownScan_eq_some stepped
      exact accounted.same_calls (forward_of_same rfl rfl rfl) rfl rfl rfl
  | shutdownSend =>
      obtain ⟨inos, _, rfl⟩ := Option.map_eq_some_iff.mp stepped
      have forward := forward_foldl_enqueue inos state
      obtain ⟨worker, outcome, same⟩ := foldl_enqueue_eq inos state
      rw [same] at forward ⊢
      exact accounted.same_calls ⟨forward.phase, forward.batch, forward.queue,
        forward.outcome⟩ rfl rfl rfl
  | shutdownClose =>
      obtain ⟨_, rfl⟩ := shutdownClose_eq_some stepped
      cases accepts

theorem Noted.of_same (noted : state.Noted)
    (outcome : next.outcome = state.outcome)
    (errors : next.errors = state.errors) : next.Noted := by
  intro ino failed
  rw [errors]
  exact noted ino (outcome ▸ failed)

theorem noted_enqueue (noted : state.Noted) (ino : Ino) :
    (state.enqueue ino).Noted := by
  intro target failed
  unfold enqueue at failed ⊢
  split at failed
  · rw [if_pos ‹_›]
    by_cases same : target = ino
    · rw [same] at failed
      simp at failed
    · exact noted target (by simpa [Function.update_of_ne same] using failed)
  · rw [if_neg ‹_›]
    exact noted target failed

theorem noted_foldl_enqueue (inos : List Ino) (noted : state.Noted) :
    (inos.foldl enqueue state).Noted := by
  induction inos generalizing state with
  | nil => exact noted
  | cons ino inos ih => exact ih (noted_enqueue noted ino)

/-- A failure of some inodes comes with the errors of these. -/
theorem Noted.fails {inos : List Ino} (noted : state.Noted)
    (outcome : next.outcome = state.fail inos)
    (told : ∀ ino ∈ inos, (next.errors ino).isSome)
    (others : ∀ ino, ino ∉ inos → (state.errors ino).isSome →
      (next.errors ino).isSome) : next.Noted := by
  intro ino failed
  rw [outcome, fail] at failed
  by_cases member : ino ∈ inos
  · exact told ino member
  · rw [if_neg member] at failed
    exact others ino member (noted ino failed)

theorem noted_examined (noted : state.Noted) : state.examined.Noted := by
  refine noted.fails rfl ?_ ?_
  · intro ino member
    obtain ⟨requested, missing⟩ := List.mem_filter.mp member
    change (recordMissing _ _ _ _ ino).isSome
    rw [recordMissing_apply, if_pos requested]
    obtain ⟨message, isMessage⟩ := Option.isSome_iff_exists.mp missing
    rw [isMessage]
    rfl
  · intro ino _ told
    change (recordMissing _ _ _ _ ino).isSome
    rw [recordMissing_apply]
    split
    · cases (examine state.table state.isStaged ino).message with
      | none => exact told
      | some message => rfl
    · exact told

theorem noted_recordErrors {items : List FlushItem} {message : List Char}
    (noted : state.Noted)
    (outcome : next.outcome = state.fail (items.map (·.ino)))
    (errors : next.errors = recordErrors state.errors items message) :
    next.Noted := by
  refine noted.fails outcome ?_ ?_
  · intro ino member
    rw [errors, recordErrors_apply, if_pos member]
    rfl
  · intro ino absent told
    rw [errors, recordErrors_apply, if_neg absent]
    exact told

theorem noted_checkError (noted : state.Noted) (ino : Ino) :
    (state.checkError ino).Noted := by
  intro target failed
  unfold checkError at failed ⊢
  dsimp only at failed ⊢
  by_cases same : target = ino
  · subst same
    split at failed <;> rename_i outcome
    · simp at failed
    · exact absurd failed outcome
  · rw [Function.update_of_ne same]
    apply noted target
    split at failed
    · rwa [Function.update_of_ne same] at failed
    · exact failed

theorem Noted.aside {event : PipelineEvent} (noted : state.Noted)
    (aside : Aside state event next) : next.Noted := by
  cases aside with
  | mark | call | delete | abort | scan | close => exact noted
  | told ino => exact noted_checkError noted ino
  | request other ino op => exact (noted_enqueue noted ino).of_same rfl rfl
  | @send inos listed =>
      exact (noted_foldl_enqueue inos noted).of_same rfl rfl

theorem Noted.prepared {before : FlushPipeline} (noted : state.Noted)
    (prepared : Prepared state before) : before.Noted := by
  cases prepared with
  | same | applied | sent => exact noted
  | examined => exact noted_examined noted
  | uploadsFailed | commitsFailed => exact noted_recordErrors noted rfl rfl

theorem Noted.step {event : PipelineEvent} (noted : state.Noted)
    (stepped : state.step event = some next) : next.Noted := by
  cases isWork : event.isWork with
  | false => exact noted.aside (aside_of_step isWork stepped)
  | true =>
      cases work_of_step isWork stepped with
      | channel _ _ _ => exact noted
      | within prepared _ _ =>
          have kept := noted.prepared prepared
          exact kept
      | ends prepared ends =>
          have kept := noted.prepared prepared
          obtain ⟨_, _, rfl⟩ := finish_eq_some ends
          exact kept

end

/-! ## Runs -/

theorem consistent_of_run {remote : Remote} {events : List PipelineEvent}
    {final : FlushPipeline} (run : exec step (new remote) events = some final) :
    final.Consistent :=
  exec_invariant_of_step (fun _ _ _ => Consistent.step) (consistent_idle rfl)
    run

theorem noted_of_run {remote : Remote} {events : List PipelineEvent}
    {final : FlushPipeline} (run : exec step (new remote) events = some final) :
    final.Noted := by
  refine exec_invariant_of_step (fun _ _ _ => Noted.step) ?_ run
  intro ino failed
  cases failed

theorem calm_oneFile : ∀ event ∈ oneFile, event.IsCalm := by
  simp [oneFile, PipelineEvent.IsCalm]

end FlushPipeline

end HfMount.Flush
