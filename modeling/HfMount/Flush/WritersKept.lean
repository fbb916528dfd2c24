import HfMount.Flush.HandleTurns

/-!
# Staging collection and open handles

A commit is the only step that can make an inode clean while a handle is open.
If none does so between the choice of an inode and the re-check by `gcOne`, the
pass removes the staging file of a closed inode only, and every handle keeps
writing into the file that the next flush uploads.
-/

namespace HfMount.Flush

open Inode Transition StagingCache

namespace StagingGc

open StagedFile

/-! ## The invariant -/

/-- `plain` says that nothing has failed and nothing has come in from the
remote. -/
structure Guarded (plain : Bool) (state : StagingGc) : Prop where
  locked : Locked state.cache.file
  attached : plain = true → state.cache.file.Attached
  counted : state.cache.file.entry.eviction.openHandles =
    state.cache.file.handles.length + state.readers
  /-- What was closed when it was chosen is dirty once it is open again. -/
  pending : ∀ pass ∈ state.passes, pass.isPending = true →
    state.cache.file.handles ≠ [] → state.cache.file.entry.isDirty = true
  holder : ∀ id pass, state.passes[id]? = some pass → pass.holdsLock = true →
    state.holder = some id
  free : state.holder.isSome = true → state.cache.file.lock = none
  checked : .checked true ∈ state.passes →
    state.cache.file.entry.isDirty = false ∧ state.cache.file.handles = []
  writing : ∀ id op, state.cache.file.op id = some op → op.isWriting = true →
    id ∈ state.writes
  writes : state.writes ≠ [] → state.cache.file.handles ≠ []

section

variable {plain : Bool} {state : StagingGc}

theorem Guarded.holder_of_checked (guarded : state.Guarded plain) {stillClean : Bool}
    (checked : .checked stillClean ∈ state.passes) :
    state.holder.isSome = true := by
  obtain ⟨id, found⟩ := List.mem_iff_getElem?.mp checked
  rw [guarded.holder id _ found rfl]
  rfl

theorem ne_nil_of_keeps {before after : List Nat}
    (keeps : ∀ handle ∈ before, handle ∈ after) (opened : before ≠ []) :
    after ≠ [] := by
  obtain ⟨handle, member⟩ := List.exists_mem_of_ne_nil before opened
  exact List.ne_nil_of_mem (keeps handle member)

/-- A step of the staged file keeps the invariant. -/
theorem Guarded.moves (guarded : state.Guarded plain) {waits : Bool}
    {begun : Option Nat} {cache : StagingCache} {writes : List Nat}
    (moves : Moves waits begun state.cache.file cache.file)
    (attached : plain = true → cache.file.Attached)
    (locked : Locked cache.file) (held : waits = true → state.holder = none)
    (writing : ∀ id op, cache.file.op id = some op → op.isWriting = true →
      id ∈ writes)
    (known : writes ≠ [] → cache.file.handles ≠ []) :
    { state with cache, writes }.Guarded plain := by
  have idle : state.holder.isSome = true → waits = false := by
    intro isHeld
    cases waits with
    | false => rfl
    | true =>
        rw [held rfl] at isHeld
        cases isHeld
  refine ⟨locked, attached, ?_, ?_, guarded.holder, ?_, ?_, writing, known⟩
  · have counted := moves.counted
    have before := guarded.counted
    dsimp only
    omega
  · intro pass member isPending opened
    rcases moves.flags with ⟨handles, dirty⟩ | ⟨dirty, _⟩
    · dsimp only at opened ⊢
      rw [handles] at opened
      rw [dirty]
      exact guarded.pending pass member isPending opened
    · exact dirty
  · intro isHeld
    exact moves.lock (idle isHeld) (guarded.free isHeld)
  · intro checked
    obtain ⟨clean, closed⟩ := guarded.checked checked
    have isFree := guarded.free (guarded.holder_of_checked checked)
    rcases moves.flags with ⟨handles, dirty⟩ | ⟨_, id, op, found, marks⟩
    · exact ⟨dirty.trans clean, handles.trans closed⟩
    · rcases marks with holds | isWriting
      · have mine := guarded.locked.op id op found holds
        rw [isFree] at mine
        cases mine
      · have known := guarded.writing id op found isWriting
        exact absurd closed (guarded.writes (List.ne_nil_of_mem known))

/-- A step that begins no write. -/
theorem Guarded.goesOn (guarded : state.Guarded plain) {waits : Bool}
    {cache : StagingCache} (moves : Moves waits none state.cache.file cache.file)
    (attached : plain = true → cache.file.Attached)
    (locked : Locked cache.file)
    (held : waits = true → state.holder = none) :
    { state with cache }.Guarded plain := by
  apply guarded.moves moves attached locked held
  · intro id op found isWriting
    rcases moves.writing id op found isWriting with before | begun
    · exact guarded.writing id op before isWriting
    · cases begun
  · exact fun some => ne_nil_of_keeps moves.keeps (guarded.writes some)

theorem Guarded.turn (guarded : state.Guarded plain) {waits : Bool}
    {cache : StagingCache} (turn : Turn waits none state.cache.file cache.file)
    (locked : Locked cache.file)
    (held : waits = true → state.holder = none) :
    { state with cache }.Guarded plain :=
  guarded.goesOn turn.moves
    (fun isPlain => turn.attached (guarded.attached isPlain)) locked held

/-- A turn that begins a write through an open handle. -/
theorem Guarded.begins (guarded : state.Guarded plain) {cache : StagingCache}
    {id : Nat} (turn : Turn false (some id) state.cache.file cache.file)
    (locked : Locked cache.file) (opened : state.cache.file.handles ≠ []) :
    { state with cache, writes := id :: state.writes }.Guarded plain := by
  refine guarded.moves turn.moves
    (fun isPlain => turn.attached (guarded.attached isPlain)) locked ?_ ?_
    fun _ => ne_nil_of_keeps turn.moves.keeps opened
  · intro waits
    cases waits
  · intro other op found isWriting
    rcases turn.moves.writing other op found isWriting with before | begun
    · exact List.mem_cons_of_mem _ (guarded.writing other op before isWriting)
    · obtain rfl := Option.some.inj begun
      exact List.mem_cons_self

/-! ## Steps of opens, writes and flushes -/

/-- The end of a flush, when it makes the inode clean. -/
theorem Guarded.commit (guarded : state.Guarded plain) {cache : StagingCache}
    (locked : Locked cache.file)
    (attached : state.cache.file.Attached → cache.file.Attached)
    (handles : cache.file.handles = state.cache.file.handles)
    (lock : cache.file.lock = state.cache.file.lock)
    (eviction : cache.file.entry.eviction = state.cache.file.entry.eviction)
    (ops : cache.file.op = state.cache.file.op)
    (apart : state.cache.file.handles ≠ [] →
      ∀ pass ∈ state.passes, pass.isPending = false)
    (clean : cache.file.entry.isDirty = false) :
    { state with cache }.Guarded plain := by
  refine ⟨locked, fun isPlain => attached (guarded.attached isPlain), ?_, ?_,
    guarded.holder, ?_, ?_, ?_, ?_⟩
  · dsimp only
    rw [handles, eviction]
    exact guarded.counted
  · intro pass member isPending opened
    dsimp only at opened
    rw [handles] at opened
    rw [apart opened pass member] at isPending
    cases isPending
  · intro isHeld
    exact lock.trans (guarded.free isHeld)
  · intro checked
    exact ⟨clean, handles.trans (guarded.checked checked).2⟩
  · dsimp only
    rw [ops]
    exact guarded.writing
  · dsimp only
    rw [handles]
    exact guarded.writes

theorem Guarded.fileStep (guarded : state.Guarded plain) {store : ContentStore}
    {event : FileEvent} {cache : StagingCache} (notGc : event ≠ .gcOne)
    (held : CacheEvent.takesLock (.file event) = true → state.holder = none)
    (apart : state.CommitsApart (.cache (.file event)))
    (stepped : state.cache.file.step store event = some cache.file) :
    { state with
      cache
      writes := state.writesAfter (.file event) }.Guarded plain := by
  have locked := locked_step guarded.locked stepped
  have noLock : ∀ {waits : Bool}, waits = false →
      (waits = true → state.holder = none) := by
    rintro _ rfl ⟨⟩
  -- The two ways to end a flush with a commit.
  have commits : ∀ {item : FlushItem} {content : Bytes} {now : Time},
      state.cache.file.flush.item = some item →
      cache.file.entry = state.cache.file.entry.applyCommit
        (store.hash content) content.length item.dirtyGeneration now →
      cache.file.handles = state.cache.file.handles →
      cache.file.staging = state.cache.file.staging →
      cache.file.op = state.cache.file.op →
      cache.file.lock = state.cache.file.lock →
      (clearsDirty state.cache.file = true →
        state.cache.file.handles ≠ [] →
          ∀ pass ∈ state.passes, pass.isPending = false) →
      { state with cache }.Guarded plain := by
    intro item content now isItem entry handles staging ops lock isApart
    rcases turn_commits isItem entry handles staging ops lock with
      turn | ⟨clears, stays, eviction⟩
    · exact guarded.turn turn locked (noLock rfl)
    · apply guarded.commit locked stays handles lock eviction ops
        (isApart clears)
      have same : state.cache.file.entry.dirtyGeneration =
          item.dirtyGeneration := by
        rw [clearsDirty, isItem] at clears
        simpa [eq_comm] using clears
      rw [entry, InodeEntry.applyCommit_of_eq same]
      rfl
  cases event with
  | openStart id truncate =>
      exact guarded.turn (turn_openStart stepped) locked (noLock rfl)
  | openEnter id =>
      exact guarded.turn (turn_openEnter guarded.locked stepped)
        locked fun _ => held rfl
  | openFill id replaced =>
      exact guarded.turn (turn_openFill stepped) locked (noLock rfl)
  | openMark id =>
      exact guarded.turn (turn_openMark stepped) locked (noLock rfl)
  | openDone id now =>
      exact guarded.turn (turn_openDone guarded.locked stepped) locked
        (noLock rfl)
  | setattr id newSize =>
      exact guarded.turn (turn_setattr stepped) locked (noLock rfl)
  | setattrEnter id =>
      exact guarded.turn (turn_setattrEnter stepped) locked
        fun _ => held rfl
  | setattrApply id now =>
      exact guarded.turn (turn_setattrApply stepped) locked
        (noLock rfl)
  | pwrite id handle offset data =>
      obtain ⟨turn, opened⟩ := turn_pwrite stepped
      exact guarded.begins turn locked opened
  | writeDone id =>
      obtain ⟨turn, ended⟩ := turn_writeDone stepped
      refine guarded.moves turn.moves
        (fun isPlain => turn.attached (guarded.attached isPlain)) locked
        (noLock rfl) ?_ ?_
      · intro other op found isWriting
        rcases turn.moves.writing other op found isWriting with before | begun
        · apply List.mem_filter.mpr
          refine ⟨guarded.writing other op before isWriting, ?_⟩
          rw [decide_eq_true_eq]
          rintro rfl
          rw [ended] at found
          cases found
        · cases begun
      · intro stillWriting
        apply ne_nil_of_keeps turn.moves.keeps
        apply guarded.writes
        rintro idle
        rw [writesAfter, idle] at stillWriting
        exact stillWriting rfl
  | gcOne => exact absurd rfl notGc
  | flushLock =>
      exact guarded.turn (turn_flush guarded.locked (by simp) stepped)
        locked fun _ => held rfl
  | flushSnapshot =>
      exact guarded.turn (turn_flush guarded.locked (by simp) stepped)
        locked (noLock rfl)
  | uploadOk content =>
      exact guarded.turn (turn_flush guarded.locked (by simp) stepped)
        locked (noLock rfl)
  | uploadFail =>
      exact guarded.turn (turn_flush guarded.locked (by simp) stepped)
        locked (noLock rfl)
  | flushUnlock =>
      exact guarded.turn (turn_flush guarded.locked (by simp) stepped)
        locked (noLock rfl)
  | hubOk =>
      exact guarded.turn (turn_flush guarded.locked (by simp) stepped)
        locked (noLock rfl)
  | hubFail =>
      exact guarded.turn (turn_flush guarded.locked (by simp) stepped)
        locked (noLock rfl)
  | flushUnchanged now =>
      simp only [StagedFile.step, StagedFile.flushUnchanged] at stepped
      split at stepped
      · rename_i item content phase
        split at stepped
        · have same := Option.some.inj stepped
          have isItem : state.cache.file.flush.item = some item := by
            rw [phase]
            rfl
          exact commits isItem (by rw [← same]) (by rw [← same])
            (by rw [← same]) (by rw [← same]) (by rw [← same]) apart
        · cases stepped
      · cases stepped
  | applyCommit now =>
      simp only [StagedFile.step, StagedFile.applyCommit] at stepped
      split at stepped
      · rename_i item content phase
        have same := Option.some.inj stepped
        have isItem : state.cache.file.flush.item = some item := by
          rw [phase]
          rfl
        exact commits isItem (by rw [← same]) (by rw [← same])
          (by rw [← same]) (by rw [← same]) (by rw [← same]) apart
      · cases stepped

theorem Guarded.goesOn_of_failed (guarded : state.Guarded plain)
    (failed : plain = false) {waits : Bool} {cache : StagingCache}
    (moves : Moves waits none state.cache.file cache.file)
    (locked : Locked cache.file)
    (held : waits = true → state.holder = none) :
    { state with cache }.Guarded plain := by
  apply guarded.goesOn moves _ locked held
  intro isPlain
  rw [failed] at isPlain
  cases isPlain

/-- The operation that holds the lock fails; `left` is what it leaves. -/
theorem Guarded.fails (guarded : state.Guarded plain) (failed : plain = false)
    {cache : StagingCache} {left : StagedFile} {id : Nat} {op : FileOp}
    (found : state.cache.file.op id = some op) (holds : op.holdsLock = true)
    (handles : left.handles = state.cache.file.handles)
    (entry : left.entry = state.cache.file.entry)
    (ops : left.op = state.cache.file.op)
    (flush : left.flush.holdsLock = true →
      state.cache.file.flush.holdsLock = true)
    (same : cache.file = left.finishOp id) :
    { state with cache }.Guarded plain := by
  have ended : cache.file.op =
      Function.update state.cache.file.op id none := by
    rw [same, ← ops]
    rfl
  refine guarded.goesOn_of_failed failed (?_ : Moves false none _ _) ?_ ?_
  · refine moves_ended ?_ ?_ ended ?_
    · rw [same]
      exact handles
    · rw [same]
      exact entry
    · rw [same]
      exact fun _ => rfl
  · apply guarded.locked.replace ended (by rintro _ ⟨⟩)
      (Or.inr (Or.inr (guarded.locked.op id op found holds)))
    rw [same]
    exact flush
  · rintro ⟨⟩

/-- A step of `StagingCache` keeps the invariant. -/
theorem Guarded.cacheStep (guarded : state.Guarded plain)
    {format : StagingFormat} {store : ContentStore} {event : CacheEvent}
    {cache : StagingCache} (notGc : event ≠ .file .gcOne)
    (held : event.takesLock = true → state.holder = none)
    (apart : state.CommitsApart (.cache event))
    (isPlain : plain = true → event.isPlain = true)
    (stepped : state.cache.step format store event = some cache) :
    { state with
      cache
      writes := state.writesAfter event }.Guarded plain := by
  have locked := guarded.locked
  have noLock : false = true → state.holder = none := by
    rintro ⟨⟩
  have failed : event.isPlain = false → plain = false := by
    intro isNot
    cases plain with
    | false => rfl
    | true => exact (isPlain rfl).symm.trans isNot
  cases event with
  | file event =>
      simp only [StagingCache.step] at stepped
      split at stepped
      · obtain ⟨file, moved, rfl⟩ := Option.map_eq_some_iff.mp stepped
        apply guarded.fileStep _ held apart moved
        rintro rfl
        exact notGc rfl
      · cases stepped
  | encryptedEnter id =>
      simp only [StagingCache.step] at stepped
      split at stepped
      · cases stepped
      · obtain ⟨file, moved, rfl⟩ := Option.map_eq_some_iff.mp stepped
        exact guarded.turn (turn_encryptedEnter locked moved)
          (locked_encryptedEnter locked moved) fun _ => held rfl
  | encryptedFill id replaced =>
      simp only [StagingCache.step] at stepped
      split at stepped
      · cases stepped
      · obtain ⟨file, moved, rfl⟩ := Option.map_eq_some_iff.mp stepped
        exact guarded.turn (turn_encryptedFill moved)
          (locked_encryptedFill locked moved) noLock
  | encryptedMark id =>
      simp only [StagingCache.step] at stepped
      split at stepped
      · cases stepped
      · obtain ⟨file, moved, rfl⟩ := Option.map_eq_some_iff.mp stepped
        exact guarded.turn (turn_encryptedMark moved)
          (locked_encryptedMark locked moved) noLock
  | encryptedDone id now =>
      simp only [StagingCache.step] at stepped
      split at stepped
      · cases stepped
      · obtain ⟨file, moved, rfl⟩ := Option.map_eq_some_iff.mp stepped
        exact guarded.turn (turn_encryptedDone locked moved)
          (locked_encryptedDone locked moved) noLock
  | encryptedWrite id newEnd content =>
      simp only [StagingCache.step] at stepped
      split at stepped
      · cases stepped
      · obtain ⟨file, moved, rfl⟩ := Option.map_eq_some_iff.mp stepped
        obtain ⟨turn, opened⟩ := turn_encryptedWrite moved
        exact guarded.begins turn (locked_encryptedWrite locked moved) opened
  | cancel id =>
      have cancelled : ∀ old : FileOp, state.cache.file.op id = some old →
          old.holdsLock = false → state.cache.file.setOp id none = cache.file →
          { state with cache }.Guarded plain := by
        intro old found free same
        apply guarded.turn (same ▸ turn_cancel found free) _ noLock
        rw [← same]
        exact locked.replace rfl (by rintro _ ⟨⟩) (Or.inl rfl)
          fun flushing => flushing
      simp only [StagingCache.step] at stepped
      split at stepped
      · rename_i opening
        obtain rfl := Option.some.inj stepped
        exact cancelled _ opening rfl rfl
      · rename_i truncating
        obtain rfl := Option.some.inj stepped
        exact cancelled _ truncating rfl rfl
      · cases stepped
  | fail id leftover =>
      have kept : ∀ {op}, state.cache.file.op id = some op →
          op.holdsLock = true →
          some { file := state.cache.file.finishOp id, placed := none } =
            some cache → { state with cache }.Guarded plain := by
        intro op found holds same
        exact guarded.fails (failed rfl) found holds rfl rfl rfl
          (fun flushing => flushing)
          (congrArg StagingCache.file (Option.some.inj same)).symm
      simp only [StagingCache.step] at stepped
      split at stepped
      · rename_i preparing
        have same := congrArg StagingCache.file (Option.some.inj stepped)
        refine guarded.fails (failed rfl) preparing rfl ?_ ?_ ?_ ?_ same.symm
        all_goals cases leftover
        all_goals simp [StagedFile.leave, placeFile_flush]
      · rename_i filled
        split at stepped
        · exact kept filled rfl stepped
        · cases stepped
      · rename_i prepared
        split at stepped
        · exact kept prepared rfl stepped
        · cases stepped
      · rename_i ready
        split at stepped
        · exact kept ready rfl stepped
        · cases stepped
      · cases stepped
  | setattrFails id leftover =>
      simp only [StagingCache.step] at stepped
      split at stepped
      · obtain rfl := Option.some.inj stepped
        have ended := placed_op state.cache.file false leftover id none
        refine guarded.goesOn_of_failed (failed rfl)
          (moves_ended ?_ ?_ ended ?_) ?_ noLock
        · simp [StagedFile.setOp]
        · simp [StagedFile.setOp]
        · simp [StagedFile.setOp]
        · refine locked.replace ended (by rintro _ ⟨⟩) (Or.inl ?_)
            placeFile_holdsLock
          simp [StagedFile.setOp]
      · cases stepped
  | updateRemote hash etag size mtime cipherSize =>
      simp only [StagingCache.step] at stepped
      split at stepped
      · cases stepped
      · obtain rfl := Option.some.inj stepped
        refine guarded.goesOn_of_failed (failed rfl) (moves_entry ?_ ?_)
          ⟨locked.op, locked.flush⟩ noLock
        · exact updateRemote_generation _ _ _ _ _ _
        · unfold InodeEntry.updateRemote
          split <;> rfl
  | mergeRemote hash size mtime =>
      obtain rfl := Option.some.inj stepped
      refine guarded.goesOn_of_failed (failed rfl) (moves_entry ?_ ?_)
        ⟨locked.op, locked.flush⟩ noLock
      · exact mergeRemote_generation _ _ _ _
      · unfold InodeEntry.mergeRemote
        split <;> rfl

/-! ## Opens for reading and releases -/

/-- The eviction state counts one handle more or less, and nothing else of the
file changes. -/
theorem Guarded.counts (guarded : state.Guarded plain)
    {openHandles readers : Nat}
    (counted : openHandles = state.cache.file.handles.length + readers) :
    { state.setEntry (withHandles state.cache.file.entry openHandles) with
      readers }.Guarded plain := by
  refine ⟨⟨guarded.locked.op, guarded.locked.flush⟩, ?_, counted,
    guarded.pending, guarded.holder, guarded.free, guarded.checked,
    guarded.writing, guarded.writes⟩
  intro isPlain
  have attached := guarded.attached isPlain
  exact ⟨attached.staged, attached.reusable, attached.unopened⟩

theorem ne_nil_of_erase {handles : List Nat} {handle : Nat}
    (opened : handles.erase handle ≠ []) : handles ≠ [] := by
  rintro rfl
  exact opened rfl

theorem Guarded.close (guarded : state.Guarded plain) {handle : Nat}
    {next : StagingGc} (stepped : state.close handle = some next) :
    next.Guarded plain := by
  simp only [StagingGc.close] at stepped
  split at stepped
  · rename_i may
    obtain ⟨opened, ended⟩ := may
    obtain rfl := Option.some.inj stepped
    have fewer := List.length_erase_of_mem opened
    have positive := List.length_pos_of_mem opened
    refine ⟨⟨guarded.locked.op, guarded.locked.flush⟩, ?_, ?_, ?_,
      guarded.holder, guarded.free, ?_, guarded.writing, ?_⟩
    · intro isPlain
      have attached := guarded.attached isPlain
      refine ⟨?_, ?_, ?_⟩
      · intro other member
        exact attached.staged other (List.mem_of_mem_erase member)
      · intro stillOpen
        exact attached.reusable (ne_nil_of_erase stillOpen)
      · intro id op found replacing
        dsimp only
        rw [attached.unopened id op found replacing]
        rfl
    · have counted := guarded.counted
      dsimp only [withHandles]
      omega
    · intro pass member isPending stillOpen
      exact guarded.pending pass member isPending (ne_nil_of_erase stillOpen)
    · intro checked
      rw [(guarded.checked checked).2] at opened
      cases opened
    · intro writing closed
      exact writing (ended closed)
  · cases stepped

/-! ## Steps of the passes -/

theorem Guarded.closed_of_unopened (guarded : state.Guarded plain)
    (unopened : state.cache.file.entry.eviction.openHandles = 0) :
    state.cache.file.handles = [] := by
  have counted := guarded.counted
  apply List.eq_nil_of_length_eq_zero
  omega

/-- A pass begins while the inode is closed. -/
theorem Guarded.beginsPass (guarded : state.Guarded plain) {pass : GcPass}
    (waits : pass.holdsLock = false)
    (closed : state.cache.file.handles = []) :
    { state with passes := state.passes ++ [pass] }.Guarded plain := by
  refine ⟨guarded.locked, guarded.attached, guarded.counted, ?_, ?_,
    guarded.free, ?_, guarded.writing, guarded.writes⟩
  · intro _ _ _ opened
    exact absurd closed opened
  · intro id found isFound holds
    apply guarded.holder id found _ holds
    by_cases inside : id < state.passes.length
    · rwa [List.getElem?_append_left inside] at isFound
    · rw [List.getElem?_append_right (by omega)] at isFound
      have isNew := List.mem_singleton.mp (List.mem_of_getElem? isFound)
      rw [isNew, waits] at holds
      cases holds
  · intro checked
    rcases List.mem_append.mp checked with old | new
    · exact guarded.checked old
    · rw [← List.mem_singleton.mp new] at waits
      cases waits

/-- A pass goes on, and takes the lock or gives it back. -/
theorem Guarded.sets (guarded : state.Guarded plain) {id : Nat}
    {old new : GcPass} {holder : Option Nat}
    (found : state.passes[id]? = some old)
    (pending : new.isPending = true → old.isPending = true)
    (holds : new.holdsLock = true → holder = some id)
    (others : ∀ other pass, other ≠ id → state.passes[other]? = some pass →
      pass.holdsLock = true → holder = some other)
    (free : holder.isSome = true → state.cache.file.lock = none)
    (checked : new = .checked true → state.cache.file.entry.isDirty = false ∧
      state.cache.file.handles = []) :
    { state.setPass id new with holder }.Guarded plain := by
  refine ⟨guarded.locked, guarded.attached, guarded.counted, ?_, ?_, free, ?_,
    guarded.writing, guarded.writes⟩
  · intro pass member isPending opened
    rcases List.mem_or_eq_of_mem_set member with earlier | rfl
    · exact guarded.pending pass earlier isPending opened
    · exact guarded.pending old (List.mem_of_getElem? found)
        (pending isPending) opened
  · intro other pass isFound isHolding
    dsimp only [setPass] at isFound
    by_cases same : other = id
    · subst same
      rw [List.getElem?_set_self' ] at isFound
      rw [found] at isFound
      obtain rfl := Option.some.inj isFound
      exact holds isHolding
    · rw [List.getElem?_set_ne (Ne.symm same)] at isFound
      exact others other pass same isFound isHolding
  · intro member
    rcases List.mem_or_eq_of_mem_set member with earlier | same
    · exact guarded.checked earlier
    · exact checked same.symm

/-- The staging file of a closed inode is removed. -/
theorem Guarded.removes (guarded : state.Guarded plain)
    (closed : state.cache.file.handles = []) :
    { state with cache := { state.cache with
        file := { state.cache.file with
          staging := none } } }.Guarded plain :=
  ⟨⟨guarded.locked.op, guarded.locked.flush⟩,
    fun _ => attached_of_closed closed, guarded.counted, guarded.pending,
    guarded.holder, guarded.free, guarded.checked, guarded.writing,
    guarded.writes⟩

theorem Guarded.advancePass (guarded : state.Guarded plain) {id : Nat}
    {pass : GcPass} {next : StagingGc} (found : state.passes[id]? = some pass)
    (stepped : state.advancePass id pass = some next) :
    next.Guarded plain := by
  have member := List.mem_of_getElem? found
  have others : ∀ other pass, other ≠ id → state.passes[other]? = some pass →
      pass.holdsLock = true → state.holder = some other :=
    fun other pass _ isFound => guarded.holder other pass isFound
  cases pass with
  | closing =>
      obtain rfl := Option.some.inj stepped
      apply guarded.sets found (fun _ => rfl) _ others guarded.free
      · intro checked
        split at checked <;> cases checked
      · intro holds
        split at holds <;> cases holds
  | chosen =>
      simp only [StagingGc.advancePass] at stepped
      split at stepped
      · rename_i idle
        obtain rfl := Option.some.inj stepped
        apply guarded.sets found (fun _ => rfl) (fun _ => rfl)
        · intro other pass _ isFound holds
          have isHolder := guarded.holder other pass isFound holds
          rw [idle.1] at isHolder
          cases isHolder
        · exact fun _ => idle.2
        · rintro ⟨⟩
      · cases stepped
  | locked =>
      obtain rfl := Option.some.inj stepped
      refine guarded.sets found ?_ ?_ others guarded.free ?_
      · rintro ⟨⟩
      · exact fun _ => guarded.holder id _ found rfl
      · intro checked
        -- The pass has been pending since the inode was seen closed.
        have clean : state.cache.file.entry.isDirty = false := by
          simpa using checked
        refine ⟨clean, ?_⟩
        by_contra opened
        rw [guarded.pending _ member rfl opened] at clean
        cases clean
  | checked stillClean =>
      obtain rfl := Option.some.inj stepped
      have mine := guarded.holder id _ found rfl
      have done : { state.setPass id .finished with
          holder := none }.Guarded plain := by
        apply guarded.sets found
        · rintro ⟨⟩
        · rintro ⟨⟩
        · intro other pass distinct isFound holds
          have theirs := guarded.holder other pass isFound holds
          rw [mine] at theirs
          exact absurd (Option.some.inj theirs).symm distinct
        · rintro ⟨⟩
        · rintro ⟨⟩
      cases stillClean with
      | false => exact done
      | true => exact done.removes (guarded.checked member).2
  | finished => cases stepped

/-! ## Runs -/

theorem step_guarded {format : StagingFormat} {store : ContentStore}
    (state : StagingGc) (event : GcEvent) (next : StagingGc)
    (guarded : state.Guarded plain)
    (good : state.CommitsApart event ∧ (plain = true → event.isPlain = true))
    (stepped : state.step format store event = some next) :
    next.Guarded plain := by
  cases event with
  | cache event =>
      simp only [StagingGc.step] at stepped
      split at stepped
      · rename_i may
        obtain ⟨cache, moved, rfl⟩ := Option.map_eq_some_iff.mp stepped
        apply guarded.cacheStep may.1 _ good.1 good.2 moved
        intro takes
        cases holder : state.holder with
        | none => rfl
        | some id => simp [takes, holder] at may
      · cases stepped
  | openReadonly =>
      obtain rfl := Option.some.inj stepped
      apply guarded.counts
      have counted := guarded.counted
      omega
  | closeReadonly =>
      simp only [StagingGc.step] at stepped
      split at stepped
      · obtain rfl := Option.some.inj stepped
        apply guarded.counts
        have counted := guarded.counted
        omega
      · cases stepped
  | close handle => exact guarded.close stepped
  | lastClose =>
      simp only [StagingGc.step] at stepped
      split at stepped
      · cases stepped
      · rename_i none
        obtain rfl := Option.some.inj stepped
        apply guarded.beginsPass rfl
        apply guarded.closed_of_unopened
        simpa [InodeEntry.hasOpenHandles] using none
  | scan =>
      simp only [StagingGc.step] at stepped
      split at stepped
      · rename_i candidate
        obtain rfl := Option.some.inj stepped
        apply guarded.beginsPass rfl
        apply guarded.closed_of_unopened
        simp only [isCandidate, Bool.and_eq_true, beq_iff_eq] at candidate
        exact candidate.2
      · cases stepped
  | pass id =>
      obtain ⟨pass, found, advanced⟩ := Option.bind_eq_some_iff.mp stepped
      exact guarded.advancePass found advanced

theorem guarded_initial (initial : state.Initial) : state.Guarded plain := by
  have noOps := initial.start.noOps
  have noPass : ∀ pass, pass ∉ state.passes := by
    rw [initial.noPasses]
    exact fun _ => List.not_mem_nil
  have noOp : ∀ {id op}, state.cache.file.op id ≠ some op := by
    intro id op found
    rw [noOps id] at found
    cases found
  refine ⟨⟨fun _ _ found => absurd found noOp, ?_⟩, fun _ => ⟨initial.attached,
    ?_, fun _ _ found => absurd found noOp⟩, initial.counted,
    fun pass member => absurd member (noPass pass), ?_, ?_,
    fun member => absurd member (noPass _),
    fun _ _ found => absurd found noOp, ?_⟩
  · rw [initial.start.idle]
    rintro ⟨⟩
  · intro opened
    rcases initial.start.fresh with unstaged | dirty
    · obtain ⟨handle, member⟩ := List.exists_mem_of_ne_nil _ opened
      have staged := initial.attached handle member
      rw [unstaged] at staged
      cases staged
    · exact Or.inl dirty
  · intro id pass found
    exact absurd (List.mem_of_getElem? found) (noPass pass)
  · rw [initial.noHolder]
    rintro ⟨⟩
  · rw [initial.noWrites]
    exact fun some => absurd rfl some

end

section

variable {format : StagingFormat} {store : ContentStore}
  {initial final : StagingGc} {events : List GcEvent}

/-- In every interleaving of opens, writes, releases and flushes with passes
in which no commit cleans an open inode under a pass that has yet to re-check
it, only the staging files of closed clean inodes are removed; where no
operation fails and nothing comes in from the remote, what is written through
any handle stays in the file that the next flush uploads. -/
theorem staging_gc_spares_writers (start : initial.Initial)
    (run : exec (step format store) initial events = some final)
    (apart : AllSteps (step format store) CommitsApart initial events) :
    final.RemovesClosed ∧
      ((∀ event ∈ events, event.isPlain = true) → final.WritesLand) := by
  have runs : ∀ {plain : Bool}, AllSteps (step format store)
      (fun state event => state.CommitsApart event ∧
        (plain = true → event.isPlain = true)) initial events →
      final.Guarded plain :=
    fun good => exec_invariant step_guarded (guarded_initial start) good run
  constructor
  · have guarded : final.Guarded false := by
      apply runs
      refine allSteps_mono ?_ apart
      exact fun _ _ isApart => ⟨isApart, by rintro ⟨⟩⟩
    exact guarded.checked
  · intro plain
    have guarded : final.Guarded true := by
      apply runs
      apply apart.and
      exact allSteps_of_forall fun event member _ => plain event member
    exact (guarded.attached rfl).staged

end

/-- A file that was listed and is not open. -/
def listed : StagingGc where
  cache := StagingCache.listed none
  passes := []
  holder := none
  writes := []
  readers := 0

theorem initial_listed : listed.Initial :=
  ⟨StagingCache.initial_listed none, rfl, rfl, rfl, rfl, rfl, by
    intro handle member
    cases member⟩

/-- The file is opened, written and flushed, and its last close begins a
pass. -/
def writtenAndClosed : List GcEvent :=
  [.cache (.file (.openStart 0 false)), .cache (.file (.openEnter 0)),
    .cache (.file (.openFill 0 false)), .cache (.file (.openMark 0)),
    .cache (.file (.openDone 0 1)), .cache (.file (.pwrite 0 0 0 [66])),
    .cache (.file (.writeDone 0)), .cache (.file .flushLock),
    .cache (.file .flushSnapshot), .cache (.file (.uploadOk [66])),
    .cache (.file .flushUnlock), .cache (.file .hubOk),
    .cache (.file (.applyCommit 2)), .close 0, .lastClose, .pass 0]

/-- The pass removes the staging file, and the file is opened again. -/
def collectedAndReopened : List GcEvent :=
  writtenAndClosed ++
    [.pass 0, .pass 0, .pass 0, .cache (.file (.openStart 1 false)),
      .cache (.file (.openEnter 1)), .cache (.file (.openFill 1 false)),
      .cache (.file (.openMark 1)), .cache (.file (.openDone 1 3))]

theorem staging_gc_spares_writers_reopened :
    ((exec (step .plaintext .spelled) listed collectedAndReopened).get
        rfl).RemovesClosed ∧
      ((∀ event ∈ collectedAndReopened, event.isPlain = true) →
        ((exec (step .plaintext .spelled) listed collectedAndReopened).get
          rfl).WritesLand) :=
  staging_gc_spares_writers initial_listed (Option.some_get _).symm (by decide)

/-- The file is opened again before the pass has the lock; the flush that this
open caused finds the content unchanged and makes the inode clean, and the pass
goes on. -/
def reopenedUnderPass : List GcEvent :=
  writtenAndClosed ++
    [.cache (.file (.openStart 1 false)), .cache (.file (.openEnter 1)),
      .cache (.file (.openDone 1 3)), .cache (.file .flushLock),
      .cache (.file .flushSnapshot), .cache (.file (.uploadOk [66])),
      .cache (.file .flushUnlock), .cache (.file (.flushUnchanged 4)),
      .pass 0, .pass 0]

theorem staging_gc_takes_from_writer :
    (¬ ∀ (format : StagingFormat) (store : ContentStore)
      (initial final : StagingGc) (events : List GcEvent), initial.Initial →
      exec (step format store) initial events = some final →
      final.RemovesClosed) ∧
    ¬ ∀ (format : StagingFormat) (store : ContentStore)
      (initial final : StagingGc) (events : List GcEvent), initial.Initial →
      exec (step format store) initial events = some final →
      (∀ event ∈ events, event.isPlain = true) → final.WritesLand := by
  constructor
  · intro claim
    have closed := claim .plaintext .spelled listed _ reopenedUnderPass
      initial_listed rfl
    exact absurd (closed (by decide)).2 (by decide)
  · intro claim
    have land := claim .plaintext .spelled listed _
      (reopenedUnderPass ++ [.pass 0]) initial_listed rfl (by decide)
    exact absurd (land 0 (by decide)) (by decide)

end StagingGc

end HfMount.Flush
