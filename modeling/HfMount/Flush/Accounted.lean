import HfMount.Flush.Pipeline

/-!
# Every dirty file is accounted for

A file that is dirty and linked has a writable handle, or a call that is still
at work on it, or a request for its flush on the way, or the batch at hand has
its current generation, or its last flush has failed and the error is kept for
the next caller or has been given to one.
-/

namespace HfMount.Flush

open SlashPath Inode Vfs Streaming Transition

namespace FlushPipeline

/-- Somebody will still ask for the flush of the inode. -/
inductive Excused (state : FlushPipeline) (ino : Ino) : Prop where
  | writer (fh : FileHandle) (held : (fh, ino) ∈ state.writers)
  | op (id : CallId) (op : WriterOp) (running : state.op id = some op)
      (same : op.ino = ino)

/-- The flush of this generation of the inode is on its way, or has failed. -/
inductive Covered (state : FlushPipeline) (ino : Ino) (generation : Nat) :
    Prop where
  | queued (signal : .dirty ino ∈ state.worker.queue)
  | collected (early : state.phase.isEarly = true)
      (signal : .dirty ino ∈ state.worker.stage.batch)
  | item (item : FlushItem) (member : item ∈ state.phase.items)
      (same : item.ino = ino) (current : item.dirtyGeneration = generation)
  | settled (outcome : state.outcome ino ≠ .none)

/-- A dirty file with a link is excused or covered. -/
def Accounted (state : FlushPipeline) (excused : Ino → Prop) : Prop :=
  ∀ ino entry, state.table.get ino = some entry → entry.kind = .file →
    0 < entry.nlink → entry.isDirty = true →
    excused ino ∨ state.Covered ino entry.dirtyGeneration

/-- The phase and the worker are in step, and the uploads are those of the
first items. -/
structure Consistent (state : FlushPipeline) : Prop where
  working : state.phase = .idle ∨ ∃ batch, state.worker.stage = .working batch
  nodup : (state.phase.items.map (·.ino)).Nodup
  uploads : ∀ items uploads, state.phase = .uploading items uploads →
    uploads.map (·.1) = items.take uploads.length ∧
      uploads.length < items.length

section

variable {state next : FlushPipeline} {excused : Ino → Prop}

theorem Consistent.of_same (consistent : state.Consistent)
    (phase : next.phase = state.phase)
    (stage : next.worker.stage = state.worker.stage) : next.Consistent := by
  refine ⟨?_, ?_, ?_⟩
  · rw [phase, stage]
    exact consistent.working
  · rw [phase]
    exact consistent.nodup
  · rw [phase]
    exact consistent.uploads

/-- Between two batches. -/
theorem consistent_idle (idle : state.phase = .idle) : state.Consistent := by
  refine ⟨Or.inl idle, by simp [idle], ?_⟩
  intro items uploads uploading
  rw [idle] at uploading
  cases uploading

/-- A step that takes nothing off the way of a request. -/
structure Forward (state next : FlushPipeline) : Prop where
  phase : next.phase = state.phase
  batch : next.worker.stage.batch = state.worker.stage.batch
  queue : ∀ signal ∈ state.worker.queue, signal ∈ next.worker.queue
  outcome : ∀ ino, state.outcome ino ≠ .none →
    next.outcome ino ≠ .none ∨ .dirty ino ∈ next.worker.queue

theorem Forward.covered (forward : Forward state next) {ino : Ino}
    {generation : Nat} (covered : state.Covered ino generation) :
    next.Covered ino generation := by
  cases covered with
  | queued signal => exact .queued (forward.queue _ signal)
  | collected early signal =>
      exact .collected (forward.phase ▸ early) (forward.batch ▸ signal)
  | item item member same current =>
      exact .item item (forward.phase ▸ member) same current
  | settled outcome =>
      rcases forward.outcome ino outcome with still | requested
      · exact .settled still
      · exact .queued requested

/-- What is dirty afterwards was dirty before, and keeps its excuse. -/
theorem Accounted.forward {other : Ino → Prop}
    (accounted : state.Accounted excused) (forward : Forward state next)
    (undirtied : state.table.Undirtied next.table)
    (excuses : ∀ ino entry, next.table.get ino = some entry →
      0 < entry.nlink → excused ino →
      other ino ∨ next.Covered ino entry.dirtyGeneration) :
    next.Accounted other := by
  intro ino entry found file linked dirty
  rcases undirtied ino entry found with ⟨old, foundOld, calm⟩ | ⟨clean, _⟩
  · have fileOld : old.kind = .file := calm.kind.symm.trans file
    have dirtyOld : old.isDirty = true := by
      rw [InodeEntry.isDirty_iff, ← calm.generation]
      exact InodeEntry.isDirty_iff.mp dirty
    rcases accounted ino old foundOld fileOld (calm.linked fileOld linked)
        dirtyOld with isExcused | covered
    · exact excuses ino entry found linked isExcused
    · refine Or.inr (forward.covered ?_)
      rw [calm.generation]
      exact covered
  · rw [InodeEntry.isDirty_iff, clean] at dirty
    cases dirty

/-- One inode gets dirty and has an excuse; the others stay as they are. -/
theorem Accounted.dirtied {other : Ino → Prop}
    (accounted : state.Accounted excused) (forward : Forward state next)
    {ino : Ino} (others : ∀ target, target ≠ ino →
      next.table.get target = state.table.get target)
    (excuse : other ino) (excuses : ∀ target, excused target → other target) :
    next.Accounted other := by
  intro target entry found file linked dirty
  by_cases same : target = ino
  · exact Or.inl (same ▸ excuse)
  · rw [others target same] at found
    rcases accounted target entry found file linked dirty with
      isExcused | covered
    · exact Or.inl (excuses target isExcused)
    · exact Or.inr (forward.covered covered)

end

/-! ## The phase and the worker stay in step -/

section

variable {state next : FlushPipeline}

theorem consistent_finish (stepped : state.finish = some next) :
    next.Consistent := by
  obtain ⟨_, _, rfl⟩ := finish_eq_some stepped
  exact consistent_idle rfl

theorem stage_enqueue (state : FlushPipeline) (ino : Ino) :
    (state.enqueue ino).worker.stage = state.worker.stage ∧
      (state.enqueue ino).phase = state.phase := by
  unfold enqueue
  split
  · exact ⟨BatchWorker.stage_send _, rfl⟩
  · exact ⟨rfl, rfl⟩

theorem stage_foldl_enqueue (inos : List Ino) (state : FlushPipeline) :
    (inos.foldl enqueue state).worker.stage = state.worker.stage ∧
      (inos.foldl enqueue state).phase = state.phase := by
  induction inos generalizing state with
  | nil => exact ⟨rfl, rfl⟩
  | cons ino inos ih =>
      have first := stage_enqueue state ino
      have rest := ih (state.enqueue ino)
      exact ⟨rest.1.trans first.1, rest.2.trans first.2⟩

theorem Consistent.not_idle (consistent : state.Consistent)
    (busy : state.phase ≠ .idle) :
    ∃ batch, state.worker.stage = .working batch := by
  rcases consistent.working with idle | working
  · exact absurd idle busy
  · exact working

/-- A batch that is between two steps. -/
theorem consistent_of_early (working : ∃ batch,
    state.worker.stage = .working batch) (early : state.phase.isEarly = true) :
    state.Consistent := by
  refine ⟨Or.inr working, ?_, ?_⟩
  · rw [BatchPhase.items_of_early early]
    exact List.nodup_nil
  · intro items uploads uploading
    rw [uploading] at early
    cases early

/-- The items of the next chunk join those that have been uploaded. -/
theorem map_uploads {items : List FlushItem} {uploads : List Upload}
    {infos : List XetFileInfo}
    (begun : uploads.map (·.1) = items.take uploads.length)
    (length : infos.length = (nextChunk items uploads).length) :
    (uploads ++ (nextChunk items uploads).zip infos).map (·.1) =
      items.take (uploads ++ (nextChunk items uploads).zip infos).length := by
  have zipped : ((nextChunk items uploads).zip infos).map (·.1) =
      nextChunk items uploads := List.map_fst_zip (Nat.le_of_eq length.symm)
  have counted : ((nextChunk items uploads).zip infos).length =
      (nextChunk items uploads).length := by
    rw [List.length_zip, length, Nat.min_self]
  rw [List.map_append, begun, zipped, List.length_append, counted, nextChunk,
    List.take_add, List.length_take, List.length_drop]
  congr 1
  rw [List.take_eq_take_iff]
  simp

theorem changed_sublist (uploads : List Upload) :
    ((changedUploads uploads).map (·.1)).Sublist (uploads.map (·.1)) :=
  List.filter_sublist.map _

theorem Consistent.aside {event : PipelineEvent}
    (consistent : state.Consistent) (aside : Aside state event next) :
    next.Consistent := by
  cases aside with
  | mark | call | told | scan | close => exact consistent.of_same rfl rfl
  | request other ino op =>
      have same := stage_enqueue state ino
      exact consistent.of_same same.2 same.1
  | delete taken sent =>
      rcases sent with rfl | rfl
      · exact consistent.of_same rfl rfl
      · exact consistent.of_same rfl (BatchWorker.stage_send _)
  | abort => exact consistent_idle rfl
  | @send inos listed =>
      have same := stage_foldl_enqueue inos state
      exact consistent.of_same same.2 same.1

/-- The loop is between two batches unless it works on one. -/
theorem Consistent.idle (consistent : state.Consistent)
    (free : ∀ batch, state.worker.stage ≠ .working batch) :
    state.phase = .idle :=
  consistent.working.resolve_right fun ⟨batch, working⟩ => free batch working

theorem Consistent.step {event : PipelineEvent}
    (consistent : state.Consistent)
    (stepped : state.step event = some next) : next.Consistent := by
  cases isWork : event.isWork with
  | false => exact consistent.aside (aside_of_step isWork stepped)
  | true =>
  cases event with
  | receive =>
      obtain ⟨_, _, waiting, _, rfl⟩ := receive_eq_some stepped
      exact consistent_idle (consistent.idle (by simp [waiting]))
  | collect =>
      obtain ⟨_, _, _, collecting, _, rfl⟩ := collect_eq_some stepped
      exact consistent_idle (consistent.idle (by simp [collecting]))
  | start =>
      obtain ⟨batch, _, rfl⟩ := start_eq_some stepped
      exact consistent_of_early ⟨batch, rfl⟩ rfl
  | takeDeletes =>
      obtain ⟨started, ⟨_, rfl⟩ | ⟨_, _, rfl⟩⟩ := takeDeletes_eq_some stepped
      · exact consistent_of_early
          (consistent.not_idle (by simp [started])) rfl
      · exact consistent_of_early
          (consistent.not_idle (by simp [started])) rfl
  | deletesDone =>
      obtain ⟨_, deleting, _, rfl⟩ := deletesDone_eq_some stepped
      exact consistent_of_early (consistent.not_idle (by simp [deleting])) rfl
  | snapshot =>
      obtain ⟨locked, ⟨_, ends⟩ | ⟨some, rfl⟩⟩ := snapshot_eq_some stepped
      · exact consistent_finish ends
      · refine ⟨Or.inr (consistent.not_idle (by simp [locked])), ?_, ?_⟩
        · apply nodup_toFlush
          rw [requested, dedupPending_eq]
          exact List.nodup_dedup _
        · rintro _ _ ⟨⟩
          exact ⟨rfl, List.length_pos_iff.mpr some⟩
  | uploadChunk answer =>
      obtain ⟨items, uploads, uploading, uploaded⟩ :=
        uploadChunk_eq_some stepped
      have working := consistent.not_idle (by simp [uploading])
      have nodup := consistent.nodup
      obtain ⟨begun, _⟩ := consistent.uploads _ _ uploading
      rw [uploading] at nodup
      cases uploaded with
      | failed ends => exact consistent_finish ends
      | aborted ends =>
          obtain ⟨_, rfl⟩ := abort_eq_some ends
          exact consistent_idle rfl
      | complete length all =>
          refine ⟨Or.inr working, ?_, ?_⟩
          · change (((uploads ++ _).map (·.1)).map (·.ino)).Nodup
            rw [map_uploads begun length, List.take_of_length_le all]
            exact nodup
          · rintro _ _ ⟨⟩
      | proceeding length more =>
          refine ⟨Or.inr working, nodup, ?_⟩
          rintro _ _ ⟨⟩
          exact ⟨map_uploads begun length, more⟩
  | commitUnchanged now =>
      obtain ⟨uploads, uploaded, ⟨_, ends⟩ | ⟨_, rfl⟩⟩ :=
        commitUnchanged_eq_some stepped
      · exact consistent_finish ends
      · have nodup := consistent.nodup
        rw [uploaded] at nodup
        refine ⟨Or.inr (consistent.not_idle (by simp [uploaded])), ?_, ?_⟩
        · exact nodup.sublist ((changed_sublist uploads).map _)
        · rintro _ _ ⟨⟩
  | hubAnswer answer applied =>
      obtain ⟨uploads, sending, ⟨_, rfl⟩ | ⟨error, _, ends⟩⟩ :=
        hubAnswer_eq_some stepped
      · have nodup := consistent.nodup
        rw [sending] at nodup
        refine ⟨Or.inr (consistent.not_idle (by simp [sending])), nodup, ?_⟩
        rintro _ _ ⟨⟩
      · exact consistent_finish ends
  | commit now =>
      obtain ⟨uploads, _, ends⟩ := commit_eq_some stepped
      exact consistent_finish ends
  | stop =>
      obtain ⟨waiting, _, _, rfl⟩ := stop_eq_some stepped
      exact consistent_idle (consistent.idle (by simp [waiting]))
  | _ => cases isWork

end

/-! ## The loop drops no file -/

section

variable {state next : FlushPipeline} {excused : Ino → Prop}

theorem Accounted.of_covered (accounted : state.Accounted excused)
    (table : next.table = state.table)
    (covered : ∀ ino generation, state.Covered ino generation →
      next.Covered ino generation) : next.Accounted excused := by
  intro ino entry found file linked dirty
  rw [table] at found
  rcases accounted ino entry found file linked dirty with isExcused | before
  · exact Or.inl isExcused
  · exact Or.inr (covered ino _ before)

/-- What is covered between two phases, when the queue and the outcomes are as
they were. -/
theorem Covered.pass {ino : Ino} {generation : Nat}
    (covered : state.Covered ino generation)
    (queue : next.worker.queue = state.worker.queue)
    (outcome : next.outcome = state.outcome)
    (collected : state.phase.isEarly = true →
      .dirty ino ∈ state.worker.stage.batch → next.Covered ino generation)
    (item : ∀ item ∈ state.phase.items, item.ino = ino →
      item.dirtyGeneration = generation → next.Covered ino generation) :
    next.Covered ino generation := by
  cases covered with
  | queued signal => exact .queued (queue ▸ signal)
  | collected early signal => exact collected early signal
  | item old member same current => exact item old member same current
  | settled settled => exact .settled (outcome ▸ settled)

/-- Before the snapshot, only the batch counts. -/
theorem Accounted.early (accounted : state.Accounted excused)
    (table : next.table = state.table)
    (queue : next.worker.queue = state.worker.queue)
    (outcome : next.outcome = state.outcome)
    (batch : next.worker.stage.batch = state.worker.stage.batch)
    (earlyBefore : state.phase.isEarly = true)
    (early : next.phase.isEarly = true) : next.Accounted excused := by
  apply accounted.of_covered table
  intro ino generation covered
  apply covered.pass queue outcome
  · exact fun _ signal => .collected early (batch ▸ signal)
  · intro item member
    rw [BatchPhase.items_of_early earlyBefore] at member
    cases member

/-- After the snapshot, only the items count. -/
theorem Accounted.late (accounted : state.Accounted excused)
    (late : state.phase.isEarly = false) (table : next.table = state.table)
    (queue : next.worker.queue = state.worker.queue)
    (outcome : next.outcome = state.outcome)
    (items : ∀ item ∈ state.phase.items, item ∈ next.phase.items) :
    next.Accounted excused := by
  apply accounted.of_covered table
  intro ino generation covered
  apply covered.pass queue outcome
  · intro early
    rw [late] at early
    cases early
  · exact fun item member => .item item (items item member)

/-- The batch is over, and what it had is settled. -/
theorem Accounted.finish (stepped : state.finish = some next)
    (accounted : state.Accounted excused)
    (late : state.phase.isEarly = false)
    (settled : ∀ ino entry, state.table.get ino = some entry →
      entry.isDirty = true → ∀ item ∈ state.phase.items, item.ino = ino →
      item.dirtyGeneration = entry.dirtyGeneration →
      state.outcome ino ≠ .none) : next.Accounted excused := by
  obtain ⟨batch, _, rfl⟩ := finish_eq_some stepped
  intro ino entry found file linked dirty
  rcases accounted ino entry found file linked dirty with isExcused | covered
  · exact Or.inl isExcused
  · refine Or.inr ?_
    cases covered with
    | queued signal => exact .queued signal
    | collected early _ =>
        rw [late] at early
        cases early
    | item item member same current =>
        exact .settled (settled ino entry found dirty item member same current)
    | settled outcome => exact .settled outcome

theorem fail_ne_none {inos : List Ino} {ino : Ino} (member : ino ∈ inos) :
    state.fail inos ino ≠ .none := by
  simp [fail, member]

theorem fail_ne_none_of_ne {inos : List Ino} {ino : Ino}
    (outcome : state.outcome ino ≠ .none) : state.fail inos ino ≠ .none := by
  unfold fail
  split
  · simp
  · exact outcome

theorem mem_requested {ino : Ino} :
    ino ∈ state.requested ↔ .dirty ino ∈ state.worker.stage.batch := by
  rw [requested, dedupPending_eq, List.mem_dedup, List.mem_filterMap]
  constructor
  · rintro ⟨signal, member, same⟩
    cases signal with
    | dirty other =>
        obtain rfl := Option.some.inj same
        exact member
    | wakeDeletes => cases same
  · exact fun member => ⟨_, member, rfl⟩

/-- The snapshot takes every dirty file of the batch, or notes its error. -/
theorem Accounted.snapshot (stepped : state.snapshot = some next)
    (accounted : state.Accounted excused) : next.Accounted excused := by
  obtain ⟨locked, ended⟩ := snapshot_eq_some stepped
  -- what becomes of a dirty file that was covered
  have taken : ∀ ino entry, state.table.get ino = some entry →
      0 < entry.nlink → entry.isDirty = true →
      state.Covered ino entry.dirtyGeneration →
      .dirty ino ∈ state.worker.queue ∨ state.examined.outcome ino ≠ .none ∨
        ∃ item ∈ state.snapshotItems, item.ino = ino ∧
          item.dirtyGeneration = entry.dirtyGeneration := by
    intro ino entry found linked dirty covered
    cases covered with
    | queued signal => exact Or.inl signal
    | settled outcome => exact Or.inr (Or.inl (fail_ne_none_of_ne outcome))
    | item item member _ _ =>
        rw [locked] at member
        cases member
    | collected _ signal =>
        have isRequested := mem_requested.mpr signal
        rcases @examine_cases state.table state.isStaged ino with ⟨_, clean⟩ | ⟨other, foundOther, _, _, ⟨_, missing⟩ |
            ⟨_, due⟩⟩
        · rw [clean entry found linked] at dirty
          cases dirty
        · refine Or.inr (Or.inl (fail_ne_none ?_))
          refine List.mem_filter.mpr ⟨isRequested, ?_⟩
          rw [missing]
          rfl
        · obtain rfl := Option.some.inj (found.symm.trans foundOther)
          exact Or.inr (Or.inr ⟨_, mem_toFlush_of_due isRequested due, rfl,
            rfl⟩)
  rcases ended with ⟨none, ends⟩ | ⟨some, rfl⟩
  · obtain ⟨batch, _, rfl⟩ := finish_eq_some ends
    intro ino entry found file linked dirty
    rcases accounted ino entry found file linked dirty with isExcused | covered
    · exact Or.inl isExcused
    rcases taken ino entry found linked dirty covered with signal | outcome |
      ⟨item, member, _⟩
    · exact Or.inr (.queued signal)
    · exact Or.inr (.settled outcome)
    · rw [none] at member
      cases member
  · intro ino entry found file linked dirty
    rcases accounted ino entry found file linked dirty with isExcused | covered
    · exact Or.inl isExcused
    rcases taken ino entry found linked dirty covered with signal | outcome |
      ⟨item, member, same, current⟩
    · exact Or.inr (.queued signal)
    · exact Or.inr (.settled outcome)
    · exact Or.inr (.item item member same current)

/-- A commit leaves a dirty file dirty only if it has been changed since. -/
theorem get_applyUploads_cases {table : InodeTable} {uploads : List Upload}
    (nodup : (uploads.map (·.1.ino)).Nodup) {now : Time} {ino : Ino}
    {entry : InodeEntry}
    (found : (applyUploads table uploads now).get ino = some entry) :
    ∃ old, table.get ino = some old ∧ entry.kind = old.kind ∧
      entry.nlink = old.nlink ∧ (entry.isDirty = true →
        entry.dirtyGeneration = old.dirtyGeneration ∧
          ∀ upload ∈ uploads, upload.1.ino = ino →
            upload.1.dirtyGeneration ≠ old.dirtyGeneration) := by
  by_cases committed : ∃ upload ∈ uploads, upload.1.ino = ino
  · obtain ⟨upload, member, rfl⟩ := committed
    rw [get_applyUploads_of_mem table nodup member] at found
    obtain ⟨old, foundOld, rfl⟩ := Option.map_eq_some_iff.mp found
    by_cases same : old.dirtyGeneration = upload.1.dirtyGeneration
    · rw [InodeEntry.applyCommit_of_eq same]
      refine ⟨old, foundOld, rfl, rfl, ?_⟩
      intro dirty
      cases dirty
    · rw [InodeEntry.applyCommit_of_ne same]
      refine ⟨old, foundOld, rfl, rfl, fun _ => ⟨rfl, ?_⟩⟩
      intro other otherMember sameIno
      obtain rfl := List.inj_on_of_nodup_map nodup otherMember member sameIno
      exact fun equal => same equal.symm
  · have absent : ∀ upload ∈ uploads, upload.1.ino ≠ ino :=
      fun upload member same => committed ⟨upload, member, same⟩
    rw [get_applyUploads_of_not_mem table absent] at found
    exact ⟨entry, found, rfl, rfl, fun _ => ⟨rfl, fun upload member same =>
      absurd same (absent upload member)⟩⟩

/-- Commits clear what they are for; the rest of the items goes on. -/
theorem Accounted.applied {uploads : List Upload} {now : Time}
    (accounted : state.Accounted excused) (late : state.phase.isEarly = false)
    (table : next.table = applyUploads state.table uploads now)
    (queue : next.worker.queue = state.worker.queue)
    (outcome : next.outcome = state.outcome)
    (nodup : (uploads.map (·.1.ino)).Nodup)
    (split : ∀ item ∈ state.phase.items, item ∈ next.phase.items ∨
      item ∈ uploads.map (·.1)) : next.Accounted excused := by
  intro ino entry found file linked dirty
  rw [table] at found
  obtain ⟨old, foundOld, kind, nlink, still⟩ :=
    get_applyUploads_cases nodup found
  obtain ⟨generation, unmatched⟩ := still dirty
  have dirtyOld : old.isDirty = true := by
    rw [InodeEntry.isDirty_iff, ← generation]
    exact InodeEntry.isDirty_iff.mp dirty
  rcases accounted ino old foundOld (kind ▸ file) (nlink ▸ linked) dirtyOld with
    isExcused | covered
  · exact Or.inl isExcused
  · refine Or.inr ?_
    rw [generation]
    apply covered.pass queue outcome
    · intro early
      rw [late] at early
      cases early
    · intro item member same current
      rcases split item member with goesOn | applied
      · exact .item item goesOn same current
      · obtain ⟨upload, isApplied, rfl⟩ := List.mem_map.mp applied
        exact absurd current (unmatched upload isApplied same)

theorem map_ino_uploads (uploads : List Upload) :
    uploads.map (·.1.ino) = (uploads.map (·.1)).map (·.ino) := by
  rw [List.map_map]
  rfl

theorem mem_unchanged_or_changed {uploads : List Upload} {upload : Upload}
    (member : upload ∈ uploads) :
    upload ∈ unchangedUploads uploads ∨ upload ∈ changedUploads uploads := by
  cases same : upload.isUnchanged with
  | true => exact Or.inl (List.mem_filter.mpr ⟨member, same⟩)
  | false => exact Or.inr (List.mem_filter.mpr ⟨member, by simp [same]⟩)

theorem changed_of_no_ops {uploads : List Upload}
    (none : batchOps uploads = []) : changedUploads uploads = [] :=
  List.map_eq_nil_iff.mp (List.append_eq_nil_iff.mp none).1

theorem Accounted.commitUnchanged {now : Time}
    (stepped : state.commitUnchanged now = some next)
    (consistent : state.Consistent) (accounted : state.Accounted excused) :
    next.Accounted excused := by
  obtain ⟨uploads, uploaded, ended⟩ := commitUnchanged_eq_some stepped
  have late : state.phase.isEarly = false := by rw [uploaded]; rfl
  have nodup := consistent.nodup
  rw [uploaded, BatchPhase.items, ← map_ino_uploads] at nodup
  have nodupUnchanged : ((unchangedUploads uploads).map (·.1.ino)).Nodup :=
    nodup.sublist (List.filter_sublist.map _)
  have split : ∀ item ∈ state.phase.items,
      item ∈ (changedUploads uploads).map (·.1) ∨
        item ∈ (unchangedUploads uploads).map (·.1) := by
    intro item member
    rw [uploaded] at member
    obtain ⟨upload, isUpload, rfl⟩ := List.mem_map.mp member
    rcases mem_unchanged_or_changed isUpload with unchanged | changed
    · exact Or.inr (List.mem_map.mpr ⟨upload, unchanged, rfl⟩)
    · exact Or.inl (List.mem_map.mpr ⟨upload, changed, rfl⟩)
  rcases ended with ⟨none, ends⟩ | ⟨_, rfl⟩
  · obtain ⟨batch, _, rfl⟩ := finish_eq_some ends
    refine accounted.applied late rfl rfl rfl nodupUnchanged ?_
    rw [changed_of_no_ops none] at split
    exact fun item member => (split item member).imp_left nofun
  · exact accounted.applied late rfl rfl rfl nodupUnchanged split

theorem Accounted.commit {now : Time} (stepped : state.commit now = some next)
    (consistent : state.Consistent) (accounted : state.Accounted excused) :
    next.Accounted excused := by
  obtain ⟨uploads, committed, ends⟩ := commit_eq_some stepped
  have nodup := consistent.nodup
  rw [committed, BatchPhase.items, ← map_ino_uploads] at nodup
  obtain ⟨batch, _, rfl⟩ := finish_eq_some ends
  refine accounted.applied (by rw [committed]; rfl) rfl rfl rfl nodup ?_
  intro item member
  rw [committed] at member
  exact Or.inr member

/-- A failure of the whole batch is noted for each of its items. -/
theorem Accounted.fails {failing : FlushPipeline}
    (accounted : state.Accounted excused) (late : state.phase.isEarly = false)
    (ends : failing.finish = some next) (table : failing.table = state.table)
    (phase : failing.phase = state.phase)
    (worker : failing.worker = state.worker)
    (kept : ∀ ino, state.outcome ino ≠ .none → failing.outcome ino ≠ .none)
    (noted : ∀ item ∈ state.phase.items, failing.outcome item.ino ≠ .none) :
    next.Accounted excused := by
  have before : failing.Accounted excused := by
    apply accounted.of_covered table
    intro ino generation covered
    cases covered with
    | queued signal => exact .queued (worker ▸ signal)
    | collected early _ =>
        rw [late] at early
        cases early
    | item item member same current =>
        exact .item item (phase ▸ member) same current
    | settled settled => exact .settled (kept ino settled)
  refine before.finish ends (phase ▸ late) ?_
  rintro ino entry _ _ item member rfl _
  exact noted item (phase ▸ member)

theorem Accounted.uploadChunk
    {answer : Except (List Char) (List XetFileInfo)}
    (stepped : state.uploadChunk answer = some next)
    (running : next.worker.stage.isAborted = false)
    (consistent : state.Consistent) (accounted : state.Accounted excused) :
    next.Accounted excused := by
  obtain ⟨items, uploads, uploading, uploaded⟩ := uploadChunk_eq_some stepped
  have late : state.phase.isEarly = false := by rw [uploading]; rfl
  obtain ⟨begun, _⟩ := consistent.uploads _ _ uploading
  cases uploaded with
  | failed ends =>
      apply accounted.fails late ends rfl rfl rfl
      · exact fun ino settled => fail_ne_none_of_ne settled
      · intro item member
        rw [uploading] at member
        exact fail_ne_none (List.mem_map.mpr ⟨item, member, rfl⟩)
  | aborted ends =>
      obtain ⟨_, rfl⟩ := abort_eq_some ends
      cases running
  | complete length all =>
      refine accounted.late late rfl rfl rfl ?_
      intro item member
      rw [uploading] at member
      change item ∈ (uploads ++ _).map (·.1)
      rw [map_uploads begun length, List.take_of_length_le all]
      exact member
  | proceeding length more =>
      refine accounted.late late rfl rfl rfl ?_
      intro item member
      rw [uploading] at member
      exact member

theorem Accounted.hubAnswer {answer : Except (List Char) Unit} {applied : Bool}
    (stepped : state.hubAnswer answer applied = some next)
    (accounted : state.Accounted excused) : next.Accounted excused := by
  obtain ⟨uploads, sending, ended⟩ := hubAnswer_eq_some stepped
  have late : state.phase.isEarly = false := by rw [sending]; rfl
  rcases ended with ⟨_, rfl⟩ | ⟨error, _, ends⟩
  · refine accounted.late late rfl rfl rfl ?_
    intro item member
    rw [sending] at member
    exact member
  · apply accounted.fails late ends rfl rfl rfl
    · exact fun ino settled => fail_ne_none_of_ne settled
    · intro item member
      rw [sending] at member
      exact fail_ne_none (List.mem_map.mpr ⟨item, member, rfl⟩)

/-- The steps of the loop keep every dirty file accounted for, whatever the
excuses of the others are. -/
theorem Accounted.work {event : PipelineEvent} (isWork : event.isWork = true)
    (stepped : state.step event = some next)
    (running : next.worker.stage.isAborted = false)
    (consistent : state.Consistent) (accounted : state.Accounted excused) :
    next.Accounted excused := by
  have idle_of_stage : (∀ batch, state.worker.stage ≠ .working batch) →
      state.phase.isEarly = true := by
    intro free
    rw [consistent.idle free]
    rfl
  cases event with
  | receive =>
      obtain ⟨message, queue, waiting, queued, rfl⟩ := receive_eq_some stepped
      have early := idle_of_stage (by simp [waiting])
      refine accounted.of_covered rfl ?_
      intro ino generation covered
      cases covered with
      | queued signal =>
          rw [queued] at signal
          rcases List.mem_cons.mp signal with rfl | later
          · exact .collected early List.mem_cons_self
          · exact .queued later
      | collected _ signal =>
          rw [waiting] at signal
          cases signal
      | item item member same current => exact .item item member same current
      | settled settled => exact .settled settled
  | collect =>
      obtain ⟨batch, message, queue, collecting, queued, rfl⟩ :=
        collect_eq_some stepped
      have early := idle_of_stage (by simp [collecting])
      refine accounted.of_covered rfl ?_
      intro ino generation covered
      cases covered with
      | queued signal =>
          rw [queued] at signal
          rcases List.mem_cons.mp signal with rfl | later
          · exact .collected early (by simp)
          · exact .queued later
      | collected _ signal =>
          rw [collecting] at signal
          exact .collected early (List.mem_append_left _ signal)
      | item item member same current => exact .item item member same current
      | settled settled => exact .settled settled
  | start =>
      obtain ⟨batch, collecting, rfl⟩ := start_eq_some stepped
      refine accounted.early rfl rfl rfl ?_ ?_ rfl
      · rw [collecting]
        rfl
      · exact idle_of_stage (by simp [collecting])
  | takeDeletes =>
      obtain ⟨started, ⟨_, rfl⟩ | ⟨_, _, rfl⟩⟩ := takeDeletes_eq_some stepped
      · exact accounted.early rfl rfl rfl rfl (by rw [started]; rfl) rfl
      · exact accounted.early rfl rfl rfl rfl (by rw [started]; rfl) rfl
  | deletesDone =>
      obtain ⟨_, deleting, _, rfl⟩ := deletesDone_eq_some stepped
      exact accounted.early rfl rfl rfl rfl (by rw [deleting]; rfl) rfl
  | snapshot => exact accounted.snapshot stepped
  | uploadChunk answer => exact accounted.uploadChunk stepped running consistent
  | commitUnchanged now => exact accounted.commitUnchanged stepped consistent
  | hubAnswer answer applied => exact accounted.hubAnswer stepped
  | commit now => exact accounted.commit stepped consistent
  | stop =>
      obtain ⟨waiting, _, _, rfl⟩ := stop_eq_some stepped
      have early := idle_of_stage (by simp [waiting])
      refine accounted.early rfl rfl rfl ?_ early early
      rw [waiting]
      rfl
  | _ => cases isWork

end

/-! ## The calls account for what they make dirty -/

section

variable {state next : FlushPipeline}

theorem forward_of_same (phase : next.phase = state.phase)
    (worker : next.worker = state.worker)
    (outcome : next.outcome = state.outcome) : Forward state next := by
  refine ⟨phase, by rw [worker], ?_, ?_⟩
  · exact fun signal member => worker ▸ member
  · exact fun ino settled => Or.inl (outcome ▸ settled)

theorem forward_enqueue (state : FlushPipeline) (ino : Ino) :
    Forward state (state.enqueue ino) := by
  cases accepts : state.worker.accepts with
  | false =>
      rw [enqueue_of_refuses accepts]
      exact forward_of_same rfl rfl rfl
  | true =>
      rw [enqueue_of_accepts accepts]
      refine ⟨rfl, by simp, fun _ => BatchWorker.mem_queue_send, ?_⟩
      intro target settled
      by_cases same : target = ino
      · subst same
        right
        rw [BatchWorker.send_of_accepts accepts]
        exact List.mem_append_right _ List.mem_cons_self
      · left
        dsimp only
        rwa [Function.update_of_ne same]

theorem Forward.trans {last : FlushPipeline} (first : Forward state next)
    (second : Forward next last) : Forward state last := by
  refine ⟨second.phase.trans first.phase, second.batch.trans first.batch, ?_,
    ?_⟩
  · exact fun signal member => second.queue signal (first.queue signal member)
  · intro ino settled
    rcases first.outcome ino settled with still | requested
    · exact second.outcome ino still
    · exact Or.inr (second.queue _ requested)

theorem forward_foldl_enqueue (inos : List Ino) (state : FlushPipeline) :
    Forward state (inos.foldl enqueue state) := by
  induction inos generalizing state with
  | nil => exact forward_of_same rfl rfl rfl
  | cons ino inos ih => exact (forward_enqueue state ino).trans (ih _)

/-- An error that is handed to a caller is still the outcome. -/
theorem forward_checkError (state : FlushPipeline) (ino : Ino) :
    Forward state (state.checkError ino) := by
  refine ⟨rfl, rfl, fun _ member => member, ?_⟩
  intro target settled
  left
  unfold checkError
  dsimp only
  split
  · by_cases same : target = ino
    · rw [same, Function.update_self]
      simp
    · rwa [Function.update_of_ne same]
  · exact settled

/-- Only an abort takes something off the way of a request. -/
theorem Aside.forward {event : PipelineEvent} (aside : Aside state event next)
    (going : event ≠ .abort) : Forward state next := by
  cases aside with
  | mark | call | scan => exact forward_of_same rfl rfl rfl
  | told ino => exact forward_checkError state ino
  | request other ino op =>
      have forward := forward_enqueue state ino
      exact ⟨forward.phase, forward.batch, forward.queue, forward.outcome⟩
  | delete taken sent =>
      rcases sent with rfl | rfl
      · exact forward_of_same rfl rfl rfl
      · exact ⟨rfl, by simp, fun _ => BatchWorker.mem_queue_send,
          fun _ => Or.inl⟩
  | abort => exact absurd rfl going
  | @send inos listed =>
      have forward := forward_foldl_enqueue inos state
      exact ⟨forward.phase, forward.batch, forward.queue, forward.outcome⟩
  | close => exact ⟨rfl, rfl, fun _ queued => queued, fun _ => Or.inl⟩

theorem Excused.of_same {ino : Ino} (excused : state.Excused ino)
    (writers : next.writers = state.writers) (op : next.op = state.op) :
    next.Excused ino := by
  cases excused with
  | writer fh held => exact .writer fh (writers ▸ held)
  | op id running found same => exact .op id running (op ▸ found) same

/-- With the same table, handles and calls. -/
theorem Accounted.same_calls (accounted : state.Accounted state.Excused)
    (forward : Forward state next) (table : next.table = state.table)
    (writers : next.writers = state.writers) (op : next.op = state.op) :
    next.Accounted next.Excused := by
  apply accounted.forward forward
  · rw [table]
    exact (InodeTable.Calm.refl _).undirtied
  · exact fun ino entry _ _ excused => Or.inl (excused.of_same writers op)

/-- A call takes the next step, and nobody else is concerned. -/
theorem Excused.setOp {id : CallId} {old : Option WriterOp}
    (new : Option WriterOp) (here : state.op id = old) {ino : Ino} (excused : state.Excused ino)
    (kept : ∀ op, old = some op → op.ino = ino → ∃ later, new = some later ∧
      later.ino = ino) : (state.setOp id new).Excused ino := by
  cases excused with
  | writer fh held => exact .writer fh held
  | op other op found same =>
      by_cases isId : other = id
      · subst isId
        obtain ⟨later, rfl, sameLater⟩ := kept op (here.symm.trans found) same
        exact .op other later (Function.update_self _ _ _) sameLater
      · exact .op other op ((Function.update_of_ne isId _ _).trans found) same

/-- A call that makes an inode dirty goes on with it. -/
theorem Accounted.marks {id : CallId} (op : WriterOp) (table : InodeTable)
    (accounted : state.Accounted state.Excused) (free : state.op id = none)
    (others : ∀ target, target ≠ op.ino →
      table.get target = state.table.get target) :
    ((state.setTable table).setOp id (some op)).Accounted
      ((state.setTable table).setOp id (some op)).Excused := by
  refine accounted.dirtied (forward_of_same rfl rfl rfl) others ?_ ?_
  · exact .op id op (Function.update_self _ _ _) rfl
  · intro target excused
    exact (excused.setOp (some op) free (by simp)).of_same rfl rfl

theorem get_remove_self (table : InodeTable) (ino : Ino) :
    (table.remove ino).get ino = none := by
  unfold InodeTable.remove
  split <;> rename_i found
  · exact found
  · rename_i entry
    cases after : InodeTable.get _ ino with
    | none => rfl
    | some kept =>
        have calm := ((InodeTable.calm_detachFromParent (table.dropEntry ino)
          entry.parent ino entry.kind).trans
            (InodeTable.calm_foldl InodeTable.calm_dropEntry _ _)) ino kept after
        obtain ⟨old, foundOld, _⟩ := calm
        simp [InodeTable.dropEntry, found] at foundOld

theorem Accounted.create {id : CallId} {parent : Ino} {name : Name}
    {fullPath : Path} {mode uid gid : Nat} {now : Time}
    (accounted : state.Accounted state.Excused)
    (stepped : state.create id parent name fullPath mode uid gid now =
      some next) : next.Accounted next.Excused := by
  obtain ⟨free, isDirectory, rfl⟩ := create_eq_some stepped
  obtain ⟨parentEntry, found, directory⟩ :=
    InodeTable.isDirectory_iff.mp isDirectory
  generalize inserted : state.table.insert parent name fullPath .file 0 now
    none mode uid gid now = created
  have undirtied : state.table.Undirtied created.2 := by
    rw [← inserted]
    exact InodeTable.undirtied_insert found directory name fullPath .file 0 now
      none mode uid gid now
  have brought : (state.setTable created.2).Accounted
      (state.setTable created.2).Excused :=
    accounted.forward (forward_of_same rfl rfl rfl) undirtied
      fun ino entry _ _ excused => Or.inl (excused.of_same rfl rfl)
  have marked := brought.marks (.creating created.1)
    (created.2.modify created.1 (·.setDirty)) free
    fun target other => InodeTable.get_modify_of_ne _ other _
  simp only [References.createEntry, inserted]
  refine marked.forward (forward_of_same rfl rfl rfl)
    (InodeTable.calm_touchParent _ _ _).undirtied ?_
  exact fun ino entry _ _ excused => Or.inl (excused.of_same rfl rfl)

/-- The inode of a create that fails is gone. -/
theorem Accounted.createFails {id : CallId}
    (accounted : state.Accounted state.Excused)
    (stepped : state.createFails id = some next) :
    next.Accounted next.Excused := by
  obtain ⟨ino, creating, rfl⟩ := createFails_eq_some stepped
  refine accounted.forward (forward_of_same rfl rfl rfl)
    (InodeTable.calm_remove _ _).undirtied ?_
  intro target entry found _ excused
  left
  have other : target ≠ ino := by
    rintro rfl
    have gone := get_remove_self state.table target
    have kept : (state.table.remove target).get target = some entry := found
    rw [gone] at kept
    cases kept
  have kept := excused.setOp none creating (by
    rintro op ⟨⟩ same
    exact absurd same.symm other)
  exact kept.of_same rfl rfl

theorem Accounted.install {id : CallId} {fh : FileHandle}
    (accounted : state.Accounted state.Excused)
    (stepped : state.install id fh = some next) :
    next.Accounted next.Excused := by
  obtain ⟨op, running, rfl⟩ := install_eq_some stepped
  refine accounted.forward (forward_of_same rfl rfl rfl) ?_ ?_
  · refine (InodeTable.calm_modify _ _ fun entry _ => ?_).undirtied
    exact InodeEntry.calm_of_le rfl rfl rfl (Nat.le_refl _)
  · intro target entry _ _ excused
    left
    by_cases same : target = op.ino
    · exact .writer fh (same ▸ List.mem_cons_self)
    · have kept := excused.setOp none running (by
        rintro _ ⟨⟩ isTarget
        exact absurd isTarget.symm same)
      cases kept with
      | writer other held => exact .writer other (List.mem_cons_of_mem _ held)
      | op other later found isTarget => exact .op other later found isTarget

theorem Accounted.write {fh : FileHandle} {newEnd : Nat}
    (accounted : state.Accounted state.Excused)
    (stepped : state.write fh newEnd = some next) :
    next.Accounted next.Excused := by
  obtain ⟨ino, held, rfl⟩ := write_eq_some stepped
  refine accounted.dirtied (forward_of_same rfl rfl rfl)
    (fun target other => InodeTable.get_modify_of_ne _ other _)
    (.writer fh held) ?_
  exact fun target excused => excused.of_same rfl rfl

theorem Accounted.release {id : CallId} {fh : FileHandle}
    (accounted : state.Accounted state.Excused)
    (stepped : state.release id fh = some next) :
    next.Accounted next.Excused := by
  obtain ⟨ino, free, looked, rfl⟩ := release_eq_some stepped
  refine accounted.forward (forward_of_same rfl rfl rfl)
    (InodeTable.Calm.refl _).undirtied ?_
  intro target entry _ _ excused
  left
  have kept := excused.setOp (some (.releasing ino)) free (by simp)
  cases kept with
  | op other op running same => exact .op other op running same
  | writer other held =>
      by_cases same : target = ino
      · exact .op id (.releasing ino) (Function.update_self _ _ _) same.symm
      · refine .writer other ?_
        obtain ⟨before, after, listed, apart⟩ :=
          List.lookup_eq_some_iff.mp looked
        have erased : state.writers.eraseP (·.1 == fh) = before ++ after := by
          rw [listed, List.eraseP_append_right _ (by
            intro writer member
            have differs := apart writer member
            simp only [bne_iff_ne, ne_eq] at differs
            simpa using fun equal => differs equal.symm),
            List.eraseP_cons_of_pos (by simp)]
        have stays : (other, target) ∈ before ++ (fh, ino) :: after :=
          listed ▸ held
        change (other, target) ∈ state.writers.eraseP (·.1 == fh)
        rw [erased]
        rcases List.mem_append.mp stays with first | last
        · exact List.mem_append_left _ first
        · rcases List.mem_cons.mp last with equal | rest
          · exact absurd (Prod.mk.inj equal).2 same
          · exact List.mem_append_right _ rest

theorem Accounted.releaseCheck {id : CallId}
    (accounted : state.Accounted state.Excused)
    (stepped : state.releaseCheck id = some next) :
    next.Accounted next.Excused := by
  obtain ⟨ino, releasing, rfl⟩ := releaseCheck_eq_some stepped
  refine accounted.forward (forward_of_same rfl rfl rfl)
    (InodeTable.Calm.refl _).undirtied ?_
  intro target entry found linked excused
  left
  apply excused.setOp _ releasing
  rintro op ⟨⟩ same
  obtain rfl : ino = target := same
  have present : state.table.get ino = some entry := found
  rw [present, Option.any_some, if_neg (by simp; omega)]
  exact ⟨_, rfl, rfl⟩

theorem Accounted.schedule {id : CallId}
    (accounted : state.Accounted state.Excused)
    (accepts : state.worker.accepts = true)
    (stepped : state.schedule id = some next) :
    next.Accounted next.Excused := by
  obtain ⟨ino, scheduling, rfl⟩ := schedule_eq_some stepped
  rw [enqueue_of_accepts accepts]
  have forward := forward_enqueue state ino
  rw [enqueue_of_accepts accepts] at forward
  refine accounted.forward ⟨forward.phase, forward.batch, forward.queue,
    forward.outcome⟩ (InodeTable.Calm.refl _).undirtied ?_
  intro target entry _ _ excused
  by_cases same : target = ino
  · right
    refine .queued ?_
    rw [same]
    change _ ∈ (state.worker.send (.dirty ino)).queue
    rw [BatchWorker.send_of_accepts accepts]
    exact List.mem_append_right _ List.mem_cons_self
  · left
    have kept := excused.setOp none scheduling (by
      rintro op ⟨⟩ isTarget
      exact absurd isTarget.symm same)
    exact kept.of_same rfl rfl

end

end FlushPipeline

end HfMount.Flush
