import HfMount.Flush.NoFileForgotten

/-!
# The drain at shutdown

The shutdown looks for the dirty files, asks for their flush and closes the
channel.  When the loop has then come to its end by itself, a file that is
still dirty is one whose flush has failed.
-/

namespace HfMount.Flush

open Inode Vfs Streaming Transition

/-- Nothing becomes dirty. -/
def PipelineEvent.IsQuiet : PipelineEvent → Prop
  | .table op => op.IsCalm
  | .open _ _ _ _ | .create _ _ _ _ _ _ _ _ | .write _ _
  | .truncate _ _ _ _ => False
  | _ => True

namespace FlushPipeline

/-! ## The scan finds every dirty file -/

/-- The entries stand under their own numbers. -/
def Keyed (state : FlushPipeline) : Prop :=
  ∀ ino entry, state.table.get ino = some entry → entry.inode = ino

section

variable {state next : FlushPipeline}

theorem Keyed.of_same (keyed : state.Keyed)
    (table : next.table = state.table) : next.Keyed :=
  fun ino entry found => keyed ino entry (table ▸ found)

theorem Keyed.undirtied (keyed : state.Keyed)
    (undirtied : state.table.Undirtied next.table) : next.Keyed := by
  intro ino entry found
  rcases undirtied ino entry found with ⟨old, foundOld, calm⟩ | ⟨_, key⟩
  · exact calm.inode.trans (keyed ino old foundOld)
  · exact key

theorem Keyed.modified (keyed : state.Keyed) {ino : Ino}
    {change : InodeEntry → InodeEntry}
    (table : next.table = state.table.modify ino change)
    (same : ∀ entry : InodeEntry, (change entry).inode = entry.inode) :
    next.Keyed := by
  intro other entry found
  rw [table, InodeTable.get_modify] at found
  split at found <;> rename_i isIno
  · obtain ⟨old, foundOld, rfl⟩ := Option.map_eq_some_iff.mp found
    exact ((same old).trans (keyed ino old foundOld)).trans isIno.symm
  · exact keyed other entry found

theorem inode_applyCommit (entry : InodeEntry) (hash : Hash)
    (size generation : Nat) (now : Time) :
    (entry.applyCommit hash size generation now).inode = entry.inode := by
  by_cases same : entry.dirtyGeneration = generation
  · rw [InodeEntry.applyCommit_of_eq same]
    rfl
  · rw [InodeEntry.applyCommit_of_ne same]

theorem keyed_applyUploads (uploads : List Upload) (now : Time)
    (keyed : state.Keyed) :
    (state.setTable (applyUploads state.table uploads now)).Keyed := by
  induction uploads generalizing state with
  | nil => exact keyed
  | cons upload uploads ih =>
      have first : (state.setTable
          (applyUpload now state.table upload)).Keyed :=
        keyed.modified rfl fun entry => inode_applyCommit entry _ _ _ _
      exact ih first

theorem Keyed.mark {event : PipelineEvent} (isMark : event.isMark = true)
    (calm : event.IsCalm) (keyed : state.Keyed)
    (stepped : state.step event = some next) : next.Keyed := by
  cases event with
  | table op =>
      obtain ⟨table, applied, rfl⟩ := Option.map_eq_some_iff.mp stepped
      exact keyed.undirtied (InodeTable.undirtied_applyOp calm applied)
  | «open» id ino truncate now =>
      obtain ⟨entry, _, found, rfl⟩ := openWrite_eq_some stepped
      have marked :=
        InodeTable.modify_of_some found (markOpened · truncate now)
      exact keyed.modified marked.symm fun _ => rfl
  | create id parent name fullPath mode uid gid now =>
      obtain ⟨_, isDirectory, rfl⟩ := create_eq_some stepped
      obtain ⟨parentEntry, found, directory⟩ :=
        InodeTable.isDirectory_iff.mp isDirectory
      generalize inserted : state.table.insert parent name fullPath .file 0 now
        none mode uid gid now = created
      have brought : (state.setTable created.2).Keyed := by
        apply keyed.undirtied
        rw [← inserted]
        exact InodeTable.undirtied_insert found directory name fullPath .file 0
          now none mode uid gid now
      have marked : ((state.setTable created.2).setTable
          (created.2.modify created.1 (·.setDirty))).Keyed :=
        brought.modified rfl fun _ => rfl
      simp only [References.createEntry, inserted]
      exact marked.undirtied (InodeTable.calm_touchParent _ _ _).undirtied
  | createFails id =>
      obtain ⟨_, _, rfl⟩ := createFails_eq_some stepped
      exact keyed.undirtied (InodeTable.calm_remove _ _).undirtied
  | install id fh =>
      obtain ⟨_, _, rfl⟩ := install_eq_some stepped
      exact keyed.modified rfl fun _ => rfl
  | write fh newEnd =>
      obtain ⟨_, _, rfl⟩ := write_eq_some stepped
      exact keyed.modified rfl fun _ => rfl
  | truncate id ino newSize now =>
      obtain ⟨entry, _, found, rfl⟩ := truncate_eq_some stepped
      have cut := InodeTable.modify_of_some found
        (StagedFile.truncatedEntry · newSize now)
      exact keyed.modified cut.symm fun _ => rfl
  | _ => cases isMark

theorem Keyed.aside {event : PipelineEvent} (calm : event.IsCalm)
    (keyed : state.Keyed) (stepped : state.step event = some next)
    (aside : Aside state event next) : next.Keyed := by
  cases aside with
  | mark isMark => exact keyed.mark isMark calm stepped
  | call | told | delete | abort | scan | close => exact keyed
  | request other ino op => exact keyed.of_same (table_enqueue [ino] state)
  | @send inos listed => exact keyed.of_same (table_enqueue inos state)

theorem Keyed.prepared {before : FlushPipeline} (keyed : state.Keyed)
    (prepared : Prepared state before) : before.Keyed := by
  cases prepared with
  | same | examined | uploadsFailed | sent | commitsFailed => exact keyed
  | applied uploads now => exact keyed_applyUploads uploads now keyed

theorem Keyed.step {event : PipelineEvent} (calm : event.IsCalm)
    (keyed : state.Keyed) (stepped : state.step event = some next) :
    next.Keyed := by
  cases isWork : event.isWork with
  | false => exact keyed.aside calm stepped (aside_of_step isWork stepped)
  | true =>
      cases work_of_step isWork stepped with
      | channel _ _ _ => exact keyed
      | within prepared _ _ =>
          have kept := keyed.prepared prepared
          exact kept
      | ends prepared ends =>
          have kept := keyed.prepared prepared
          obtain ⟨_, _, rfl⟩ := finish_eq_some ends
          exact kept

theorem keyed_of_run {remote : Remote} {events : List PipelineEvent}
    {final : FlushPipeline} (calm : ∀ event ∈ events, event.IsCalm)
    (run : exec step (new remote) events = some final) : final.Keyed := by
  have steps : AllSteps step (fun _ event => event.IsCalm) (new remote)
      events := allSteps_of_forall calm
  refine exec_invariant (fun _ _ _ keyed isCalm => keyed.step isCalm) ?_ steps
    run
  intro ino entry found
  obtain ⟨rfl, rfl⟩ := InodeTable.eq_root_of_get_new found
  rfl

theorem mem_dirtyInos {ino : Ino} {entry : InodeEntry} (keyed : state.Keyed)
    (found : state.table.get ino = some entry) (file : entry.kind = .file)
    (linked : 0 < entry.nlink) (dirty : entry.isDirty = true) :
    ino ∈ state.table.dirtyInos := by
  refine List.mem_map.mpr ⟨entry, ?_, keyed ino entry found⟩
  refine List.mem_filter.mpr ⟨?_, by simp [file, dirty, linked]⟩
  exact InodeTable.mem_values.mpr ⟨ino, found⟩

end

/-! ## What the drain leaves behind -/

section

variable {state next : FlushPipeline}

theorem isOpen_enqueue (state : FlushPipeline) (ino : Ino) :
    (state.enqueue ino).drain = state.drain ∧
      (state.enqueue ino).worker.isOpen = state.worker.isOpen := by
  unfold enqueue
  split
  · exact ⟨rfl, BatchWorker.isOpen_send _⟩
  · exact ⟨rfl, rfl⟩

/-- Only the shutdown works on its list and closes the channel. -/
theorem drain_of_step {event : PipelineEvent}
    (other : event.isShutdown = false)
    (stepped : state.step event = some next) :
    next.drain = state.drain ∧
      next.worker.isOpen = state.worker.isOpen := by
  cases isWork : event.isWork with
  | true =>
      obtain ⟨_, _, drain, isOpen⟩ := calls_of_work isWork stepped
      exact ⟨drain, isOpen⟩
  | false =>
  cases aside_of_step isWork stepped with
  | mark | call | told | abort => exact ⟨rfl, rfl⟩
  | request _ ino op => exact isOpen_enqueue state ino
  | delete taken sent =>
      rcases sent with rfl | rfl
      · exact ⟨rfl, rfl⟩
      · exact ⟨rfl, BatchWorker.isOpen_send _⟩
  | scan | send | close => cases other

/-- The channel is closed when the list has been sent. -/
theorem drain_of_closed {event : PipelineEvent}
    (sent : state.worker.isOpen = false → state.drain = some [])
    (stepped : state.step event = some next)
    (closed : next.worker.isOpen = false) : next.drain = some [] := by
  cases kind : event.isShutdown with
  | false =>
      obtain ⟨drain, isOpen⟩ := drain_of_step kind stepped
      rw [drain]
      exact sent (isOpen ▸ closed)
  | true =>
      cases event with
      | shutdownScan =>
          obtain ⟨fresh, rfl⟩ := shutdownScan_eq_some stepped
          rw [sent closed] at fresh
          cases fresh
      | shutdownSend =>
          obtain ⟨inos, _, rfl⟩ := Option.map_eq_some_iff.mp stepped
          rfl
      | shutdownClose =>
          obtain ⟨sentAll, rfl⟩ := shutdownClose_eq_some stepped
          exact sentAll
      | _ => cases kind

end

/-- The dirty files that nobody has asked for yet are on the list of the
shutdown, and the channel is open as long as there are some. -/
structure Draining (state : FlushPipeline) : Prop where
  consistent : state.Consistent
  conserved : state.worker.Conserved
  scanned : ∃ inos, state.drain = some inos ∧
    (inos ≠ [] → state.worker.isOpen = true)
  accounted : state.Accounted (· ∈ state.drain.getD [])

section

variable {state next : FlushPipeline}

/-- A step of others that takes nothing off the way of a request. -/
theorem Draining.forward (draining : state.Draining) {event : PipelineEvent}
    (other : event.isShutdown = false)
    (stepped : state.step event = some next) (forward : Forward state next)
    (undirtied : state.table.Undirtied next.table) : next.Draining := by
  obtain ⟨drain, isOpen⟩ := drain_of_step other stepped
  refine ⟨draining.consistent.step stepped,
    conserved_of_step draining.conserved stepped, ?_, ?_⟩
  · rw [drain, isOpen]
    exact draining.scanned
  · refine draining.accounted.forward forward undirtied ?_
    rw [drain]
    exact fun ino entry _ _ listed => Or.inl listed

/-- Sending the list puts it into the queue. -/
theorem mem_queue_foldl_enqueue {inos : List Ino} {ino : Ino}
    (accepts : state.worker.accepts = true) (member : ino ∈ inos) :
    .dirty ino ∈ (inos.foldl enqueue state).worker.queue := by
  induction inos generalizing state with
  | nil => cases member
  | cons first inos ih =>
      rw [List.foldl_cons]
      have takes : (state.enqueue first).worker.accepts = true := by
        rw [enqueue_of_accepts accepts]
        exact (BatchWorker.accepts_send _).trans accepts
      rcases List.mem_cons.mp member with rfl | later
      · apply (forward_foldl_enqueue inos _).queue
        rw [enqueue_of_accepts accepts]
        change _ ∈ (state.worker.send (.dirty ino)).queue
        rw [BatchWorker.send_of_accepts accepts]
        exact List.mem_append_right _ List.mem_cons_self
      · exact ih takes later

theorem Draining.send (draining : state.Draining)
    (stepped : state.shutdownSend = some next)
    (running : state.worker.stage.isAborted = false) : next.Draining := by
  obtain ⟨inos, listed, isOpen⟩ := draining.scanned
  have sent : state.step .shutdownSend = some next := stepped
  have consistent := draining.consistent.step sent
  have conserved := conserved_of_step draining.conserved sent
  rw [shutdownSend, listed] at stepped
  obtain rfl := Option.some.inj stepped
  refine ⟨consistent, conserved, ⟨[], rfl, fun some => absurd rfl some⟩, ?_⟩
  have forward := forward_foldl_enqueue inos state
  have forwardAll : Forward state
      { inos.foldl FlushPipeline.enqueue state with drain := some [] } :=
    ⟨forward.phase, forward.batch, forward.queue, forward.outcome⟩
  refine draining.accounted.forward forwardAll ?_ ?_
  · change state.table.Undirtied (inos.foldl FlushPipeline.enqueue state).table
    rw [table_enqueue]
    exact (InodeTable.Calm.refl _).undirtied
  · intro ino entry _ _ member
    rw [listed, Option.getD_some] at member
    refine Or.inr (.queued (mem_queue_foldl_enqueue ?_ member))
    have opened := isOpen (List.ne_nil_of_mem member)
    rw [BatchWorker.accepts, opened, Bool.true_and]
    cases stage : state.worker.stage with
    | waiting | collecting _ | working _ => rfl
    | stopped =>
        rw [(draining.conserved.stopped stage).2] at opened
        cases opened
    | aborted batch =>
        rw [stage] at running
        cases running

/-- A loop that has been aborted is so for good. -/
theorem not_aborted_of_step {event : PipelineEvent}
    (stepped : state.step event = some next)
    (running : next.worker.stage.isAborted = false) :
    state.worker.stage.isAborted = false := by
  cases stage : state.worker.stage with
  | waiting | collecting _ | working _ | stopped => rfl
  | aborted batch =>
      have still := stage_of_step (by rw [stage]; rfl) stepped
      rw [still, stage] at running
      cases running

/-- A quiet step makes nothing dirty. -/
theorem undirtied_of_quiet {event : PipelineEvent} (quiet : event.IsQuiet)
    (other : event.isShutdown = false)
    (stepped : state.step event = some next)
    (aside : Aside state event next) : state.table.Undirtied next.table := by
  have calm : state.table.Undirtied state.table :=
    (InodeTable.Calm.refl _).undirtied
  cases aside with
  | call | told | delete | abort => exact calm
  | request _ ino op =>
      change state.table.Undirtied ([ino].foldl enqueue state).table
      rw [table_enqueue]
      exact calm
  | scan | send | close => cases other
  | mark isMark =>
      cases event with
      | «open» _ _ _ _ | create _ _ _ _ _ _ _ _ | write _ _
      | truncate _ _ _ _ => exact quiet.elim
      | table op =>
          obtain ⟨table, applied, same⟩ := Option.map_eq_some_iff.mp stepped
          rw [← same]
          exact InodeTable.undirtied_applyOp quiet applied
      | createFails id =>
          obtain ⟨_, _, same⟩ := createFails_eq_some stepped
          rw [same]
          exact (InodeTable.calm_remove _ _).undirtied
      | install id fh =>
          obtain ⟨_, _, same⟩ := install_eq_some stepped
          rw [same]
          refine (InodeTable.calm_modify _ _ fun entry _ => ?_).undirtied
          exact InodeEntry.calm_of_le rfl rfl rfl (Nat.le_refl _)
      | _ => cases isMark

theorem Draining.step {event : PipelineEvent} (quiet : event.IsQuiet)
    (draining : state.Draining) (stepped : state.step event = some next)
    (running : next.worker.stage.isAborted = false) : next.Draining := by
  cases isWork : event.isWork with
  | true =>
      obtain ⟨_, _, drain, isOpen⟩ := calls_of_work isWork stepped
      refine ⟨draining.consistent.step stepped,
        conserved_of_step draining.conserved stepped, ?_, ?_⟩
      · rw [drain, isOpen]
        exact draining.scanned
      · rw [drain]
        exact draining.accounted.work isWork stepped running
          draining.consistent
  | false =>
  have aside := aside_of_step isWork stepped
  cases other : event.isShutdown with
  | false =>
      refine draining.forward other stepped (aside.forward ?_)
        (undirtied_of_quiet quiet other stepped aside)
      rintro rfl
      obtain ⟨_, rfl⟩ := abort_eq_some stepped
      cases running
  | true =>
  cases event with
  | shutdownScan =>
      obtain ⟨fresh, _⟩ := shutdownScan_eq_some stepped
      obtain ⟨inos, listed, _⟩ := draining.scanned
      rw [fresh] at listed
      cases listed
  | shutdownSend =>
      exact draining.send stepped (not_aborted_of_step stepped running)
  | shutdownClose =>
      have same := stepped
      obtain ⟨sent, rfl⟩ := shutdownClose_eq_some stepped
      refine ⟨draining.consistent.step same,
        conserved_of_step draining.conserved same,
        ⟨[], sent, fun some => absurd rfl some⟩, ?_⟩
      refine draining.accounted.forward (aside.forward nofun)
        (InodeTable.Calm.refl _).undirtied ?_
      exact fun _ _ _ _ => Or.inl
  | _ => cases other

end

/-- The shutdown looks for the dirty files while requests are taken.  When
nothing becomes dirty any more and the loop has come to its end by itself, each
file that is still dirty and linked has failed to be flushed since then or
before, and its error is kept unless a caller has been told. -/
theorem drain_leaves_failures {remote : Remote}
    {before after : List PipelineEvent} {started scanned final : FlushPipeline}
    (calm : ∀ event ∈ before, event.IsCalm)
    (ran : exec step (new remote) before = some started)
    (scan : started.step .shutdownScan = some scanned)
    (quiet : ∀ event ∈ after, event.IsQuiet)
    (drained : exec step scanned after = some final)
    (stopped : final.worker.stage = .stopped) {ino : Ino} {entry : InodeEntry}
    (found : final.table.get ino = some entry) (file : entry.kind = .file)
    (linked : 0 < entry.nlink) (dirty : entry.isDirty = true) :
    final.outcome ino = .reported ∨
      final.outcome ino = .failed ∧ (final.errors ino).isSome := by
  have keyed := keyed_of_run calm ran
  have conserved : started.worker.Conserved :=
    exec_invariant_of_step (fun _ _ _ => conserved_of_step)
      BatchWorker.conserved_new ran
  have consistent := consistent_of_run ran
  have whole : exec step (new remote) (before ++ .shutdownScan :: after) =
      some final :=
    exec_append_iff.mpr ⟨started, ran,
      exec_cons_iff.mpr ⟨scanned, scan, drained⟩⟩
  obtain ⟨fresh, rfl⟩ := shutdownScan_eq_some scan
  have begun : ({ started with
      drain := some started.table.dirtyInos } : FlushPipeline).Draining := by
    refine ⟨consistent.of_same rfl rfl, conserved, ⟨_, rfl, ?_⟩, ?_⟩
    · intro _
      have kept : ∀ (state : FlushPipeline) event next,
          (state.worker.isOpen = false → state.drain = some []) →
          state.step event = some next → next.worker.isOpen = false →
          next.drain = some [] :=
        fun _ _ _ sent stepped => drain_of_closed sent stepped
      have sent := exec_invariant_of_step kept (fun closed => by cases closed)
        ran
      cases isOpen : started.worker.isOpen with
      | true => rfl
      | false =>
          rw [fresh] at sent
          cases sent isOpen
    · intro ino entry found file linked dirty
      exact Or.inl (mem_dirtyInos keyed found file linked dirty)
  have ended : final.Draining := by
    have steps : AllSteps step (fun _ event => event.IsQuiet)
        { started with drain := some started.table.dirtyInos } after :=
      allSteps_of_forall quiet
    have kept : ∀ (state : FlushPipeline) event next,
        (state.worker.stage.isAborted = false → state.Draining) →
        event.IsQuiet → state.step event = some next →
        next.worker.stage.isAborted = false → next.Draining := by
      intro state event next draining isQuiet stepped running
      have before := not_aborted_of_step stepped running
      exact (draining before).step isQuiet stepped running
    exact exec_invariant kept (fun _ => begun) steps drained
      (by rw [stopped]; rfl)
  obtain ⟨empty, closed⟩ := ended.conserved.stopped stopped
  obtain ⟨inos, listed, isOpen⟩ := ended.scanned
  have idle : final.phase = .idle := by
    rcases ended.consistent.working with idle | ⟨batch, working⟩
    · exact idle
    · rw [stopped] at working
      cases working
  rcases ended.accounted ino entry found file linked dirty with member | covered
  · rw [listed, Option.getD_some] at member
    rw [closed] at isOpen
    exact absurd (isOpen (List.ne_nil_of_mem member)) (by simp)
  cases covered with
  | queued signal =>
      rw [empty] at signal
      cases signal
  | collected _ signal =>
      rw [stopped] at signal
      cases signal
  | item item member _ _ =>
      rw [idle] at member
      cases member
  | settled settled =>
      cases outcome : final.outcome ino with
      | none => exact absurd outcome settled
      | reported => exact Or.inl rfl
      | failed => exact Or.inr ⟨rfl, noted_of_run whole ino outcome⟩

/-- The staging file is gone, so the flush fails. -/
theorem drain_leaves_failures_one_file :
    let final := ranFrom (oneFile ++ .shutdownScan :: oneFileDrain) rfl
    final.outcome 2 = .reported ∨
      final.outcome 2 = .failed ∧ (final.errors 2).isSome :=
  @drain_leaves_failures (fun _ => none) oneFile oneFileDrain
    (ranFrom oneFile rfl) (ranFrom (oneFile ++ [.shutdownScan]) rfl) _
    calm_oneFile (Option.some_get _).symm rfl
    (by simp [oneFileDrain, PipelineEvent.IsQuiet]) rfl rfl 2 _
    (Option.some_get rfl).symm rfl (by decide) rfl

end FlushPipeline

end HfMount.Flush
