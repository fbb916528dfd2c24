import HfMount.Streaming.HookEntries
import Mathlib.Data.List.Dedup

/-!
# The shutdown drain

`drain_streaming_writes` flushes and releases the handles that it finds open,
side by side, and waits after that for the commits that it finds in
`pending_commits`.  The kernel's calls go on meanwhile.
-/

namespace HfMount.Streaming

open Inode Interleaving Transition

namespace StreamingFs

/-- The inodes with an entry in `pending_commits`; each is that of a channel. -/
def pendingInos (fs : StreamingFs) : List Ino :=
  (((List.range fs.nextFileHandle).map fun fh => (fs.channels fh).ino).filter
    fun ino => (fs.pendingCommits ino).isSome).dedup

end StreamingFs

theorem HooksInOrder.mem_pendingInos {view : View Label StreamingFs}
    (inOrder : HooksInOrder view) {ino : Ino} :
    ino ∈ view.state.pendingInos ↔
      (view.state.pendingCommits ino).isSome = true := by
  unfold StreamingFs.pendingInos
  rw [List.mem_dedup, List.mem_filter]
  constructor
  · exact fun member => member.2
  · intro registered
    obtain ⟨hook, found⟩ := Option.isSome_iff_exists.mp registered
    obtain ⟨record, made, sameIno, _⟩ := inOrder.entry ino hook found
    refine ⟨List.mem_map.mpr ⟨record.channel, ?_, sameIno⟩, registered⟩
    exact List.mem_range.mpr (inOrder.made hook record made)

/-- How far the drain is, with the calls that it waits for. -/
inductive Phase where
  | running
  | draining (calls : List CallId)
  | waiting (calls : List CallId)
  | ended
  deriving DecidableEq

structure Shutdown where
  mount : Mount
  phase : Phase
  /-- History: the handles that have been open, until the snapshot. -/
  opened : List FileHandle

/-- The drain starts its calls under consecutive names. -/
inductive ShutdownEvent where
  | mount (event : MountEvent)
  | snapshot (first : CallId)
  | collect (first : CallId)
  | finish

namespace Shutdown

def new : Shutdown :=
  { mount := .initial .empty
    phase := .running
    opened := [] }

def returned (mount : Mount) (calls : List CallId) : Bool :=
  calls.all fun call => (mount.reply call).isSome

/-- The calls start, and the drain waits for them. -/
def startCalls (store : ContentStore) (state : Shutdown) (first : CallId)
    (calls : List Call) (phase : List CallId → Phase) : Option Shutdown :=
  (exec (system store).step state.mount (startEvents first calls)).map
    fun mount =>
      { state with
        mount
        phase := phase (List.range' first calls.length) }

def step (store : ContentStore) (state : Shutdown) :
    ShutdownEvent → Option Shutdown
  | .mount event =>
      ((system store).step state.mount event).map fun mount =>
        { state with
          mount
          opened := if state.phase = .running then
            mount.state.openFiles ∪ state.opened else state.opened }
  | .snapshot first =>
      if state.phase = .running ∧ state.mount.state.openFilesLock = none then
        state.startCalls store first
          (state.mount.state.openFiles.map .drain) .draining
      else none
  | .collect first =>
      match state.phase with
      | .draining calls =>
          if returned state.mount calls then
            state.startCalls store first
              (state.mount.state.pendingInos.map .awaitCommit) .waiting
          else none
      | _ => none
  | .finish =>
      match state.phase with
      | .waiting calls =>
          if returned state.mount calls then some { state with phase := .ended }
          else none
      | _ => none

/-- When a release installs a hook, no other one is registered for the
inode. -/
def HandsOver (state : Shutdown) : ShutdownEvent → Prop
  | .mount (.run thread _) => ∀ label ∈ state.mount.view.point thread,
      Streaming.HandsOver label state.mount.state
  | _ => True

instance (state : Shutdown) : ∀ event, Decidable (state.HandsOver event)
  | .mount (.run thread _) =>
      inferInstanceAs (Decidable (∀ label ∈ state.mount.view.point thread, _))
  | .mount (.start _ _) | .mount (.background _) | .snapshot _ | .collect _
  | .finish => isTrue trivial

/-- No commit is left when the drain has ended. -/
def Drained (state : Shutdown) : Prop :=
  state.phase = .ended → ∀ fh ∈ state.opened,
    (state.mount.state.channels fh).isTerminal = true

/-! ## What the drain knows of the handles -/

abbrev Sound (mount : Mount) : Prop :=
  Pool.Sound (hookProtocol True) (fun _ _ _ _ => True) mount

/-- A drained handle is handed over. -/
abbrev DrainedBy (mount : Mount) (fh : FileHandle) (call : CallId) : Prop :=
  mount.Tracks (hookProtocol True) call (.drain fh)
    fun _ view => view.state.Handed fh

/-- After the wait for its inode the channel is settled. -/
abbrev AwaitedBy (mount : Mount) (fh : FileHandle) (call : CallId) : Prop :=
  mount.Tracks (hookProtocol True) call
    (.awaitCommit (mount.state.channels fh).ino)
    fun _ view => (view.state.channels fh).isTerminal = true

/-- How far the drain has come with a handle. -/
def Progress (mount : Mount) (fh : FileHandle) : Phase → Prop
  | .running => True
  | .draining calls => mount.state.Handed fh ∨
      ∃ call ∈ calls, DrainedBy mount fh call
  | .waiting calls => (mount.state.channels fh).isTerminal = true ∨
      ∃ call ∈ calls, AwaitedBy mount fh call
  | .ended => (mount.state.channels fh).isTerminal = true

structure InOrder (state : Shutdown) : Prop where
  sound : Sound state.mount
  covered : ∀ fh ∈ state.opened, fh < state.mount.state.nextFileHandle ∧
    state.mount.state.Covered fh
  progress : ∀ fh ∈ state.opened, Progress state.mount fh state.phase

/-- A step of the mount loses no handle. -/
theorem keeps_of_step {store : ContentStore} {mount next : Mount}
    {event : MountEvent} (sound : Sound mount)
    (fits : mount.Fits (hookProtocol True) event)
    (moved : (system store).step mount event = some next) :
    mount.state.Grows next.state ∧ ∀ fh, fh < mount.state.nextFileHandle →
      mount.state.Covered fh → next.state.Covered fh := by
  cases event with
  | start thread call =>
      obtain ⟨_, rfl⟩ := System.start_inv moved
      exact ⟨.refl _, fun _ _ => id⟩
  | run thread choice =>
      obtain ⟨label, _, promised⟩ := (sound.run_step fits moved).2
      exact ⟨promised.grows, promised.covered trivial⟩
  | background worked =>
      obtain ⟨state, done, rfl⟩ := System.background_inv moved
      have same := sameHooks_work done
      exact ⟨same.grows, fun fh _ => (same.covered fh).mpr⟩

theorem fits_of_handsOver {state : Shutdown} {event : MountEvent}
    (fits : state.HandsOver (.mount event)) :
    state.mount.Fits (hookProtocol True) event := by
  cases event with
  | start thread call => trivial
  | run thread choice => exact fun label point _ => fits label point
  | background worked => trivial

theorem inOrder_new : InOrder new := by
  refine ⟨Pool.initial_sound hooksInOrder_empty, ?_, ?_⟩
  · intro fh member
    cases member
  · exact fun _ _ => trivial

/-- A step of the mount brings no handle back. -/
theorem progress_of_step {store : ContentStore} {mount next : Mount}
    {event : MountEvent} (sound : Sound mount)
    (fits : mount.Fits (hookProtocol True) event)
    (moved : (system store).step mount event = some next)
    {fh : FileHandle} (allocated : fh < mount.state.nextFileHandle)
    {phase : Phase} (progress : Progress mount fh phase) :
    Progress next fh phase := by
  have grows := (keeps_of_step sound fits moved).1
  cases phase with
  | running => trivial
  | draining calls =>
      apply progress.imp (grows.handed fh allocated)
      rintro ⟨call, isCall, tracks⟩
      exact ⟨call, isCall,
        tracks.step (certified_hooks True store) sound fits moved⟩
  | waiting calls =>
      apply progress.imp (grows.terminal fh allocated)
      rintro ⟨call, isCall, tracks⟩
      refine ⟨call, isCall, ?_⟩
      unfold AwaitedBy
      rw [grows.ino fh allocated]
      exact tracks.step (certified_hooks True store) sound fits moved
  | ended => exact grows.terminal fh allocated progress

/-- A handle that the snapshot does not find open is handed over. -/
theorem handed_of_covered {fs : StreamingFs} {fh : FileHandle}
    (covered : fs.Covered fh) (free : fs.openFilesLock = none)
    (closed : fh ∉ fs.openFiles) : fs.Handed fh := by
  rcases covered with isOpen | handed | ⟨call, held⟩
  · exact absurd isOpen closed
  · exact handed
  · rw [free] at held
    cases held

/-- The snapshot starts a drain for each handle that is open; the others are
handed over. -/
theorem inOrder_snapshot {store : ContentStore} {state next : Shutdown}
    {first : CallId} (inOrder : InOrder state)
    (moved : state.step store (.snapshot first) = some next) :
    InOrder next := by
  simp only [step, Option.ite_none_right_eq_some] at moved
  obtain ⟨⟨_, free⟩, moved⟩ := moved
  obtain ⟨mount, ran, rfl⟩ := Option.map_eq_some_iff.mp moved
  have keys := inOrder.sound.1
  obtain ⟨sound, same, tracked⟩ := tracks_startEvents
    (certified_hooks True store) Call.drain
    (fun fh _ view => view.state.Handed fh) inOrder.sound ran (by
      intro fh isOpen thread view sameState
      apply drain_safe
      intro _ now handed
      apply handed trivial
      · rw [sameState]
        exact keys.allocated fh isOpen
      · exact Or.inl (sameState ▸ isOpen))
  refine ⟨sound, ?_, ?_⟩
  · intro fh member
    dsimp only
    rw [same]
    exact inOrder.covered fh member
  · intro fh member
    by_cases isOpen : fh ∈ state.mount.state.openFiles
    · obtain ⟨call, inRange, tracks⟩ := tracked fh isOpen
      refine Or.inr ⟨call, ?_, tracks⟩
      rwa [List.length_map]
    · apply Or.inl
      dsimp only
      rw [same]
      exact handed_of_covered (inOrder.covered fh member).2 free isOpen

theorem isSome_reply_of_returned {mount : Mount} {calls : List CallId}
    (allReturned : returned mount calls = true) {call : CallId}
    (isCall : call ∈ calls) : (mount.reply call).isSome = true :=
  List.all_eq_true.mp allReturned call isCall

/-- The inode of a channel that is handed over and not settled is one of those
that the drain waits for. -/
theorem inOrder_collect {store : ContentStore} {state next : Shutdown}
    {first : CallId} (inOrder : InOrder state)
    (moved : state.step store (.collect first) = some next) :
    InOrder next := by
  simp only [step] at moved
  split at moved
  case h_2 => cases moved
  rename_i calls phase
  rw [Option.ite_none_right_eq_some] at moved
  obtain ⟨allReturned, moved⟩ := moved
  obtain ⟨mount, ran, rfl⟩ := Option.map_eq_some_iff.mp moved
  have keys := inOrder.sound.1
  have handed : ∀ fh ∈ state.opened, state.mount.state.Handed fh := by
    intro fh member
    have progress := inOrder.progress fh member
    rw [phase] at progress
    rcases progress with handed | ⟨call, isCall, tracks⟩
    · exact handed
    · obtain ⟨_, handed⟩ := tracks.reply keys
        (isSome_reply_of_returned allReturned isCall)
      exact handed
  obtain ⟨sound, same, tracked⟩ := tracks_startEvents
    (certified_hooks True store) Call.awaitCommit
    (fun ino _ view => ∀ fh ∈ state.opened,
      (state.mount.state.channels fh).ino = ino →
        (view.state.channels fh).isTerminal = true) inOrder.sound ran (by
      intro ino _ thread view sameState
      apply awaitCommit_safe
      intro _ now settled fh member sameIno
      apply settled fh
      · rw [sameState]
        exact (inOrder.covered fh member).1
      · rw [sameState]
        exact sameIno
      · rw [sameState]
        exact handed fh member)
  refine ⟨sound, ?_, ?_⟩
  · intro fh member
    dsimp only
    rw [same]
    exact inOrder.covered fh member
  · intro fh member
    unfold Progress AwaitedBy
    dsimp only
    rw [same]
    apply (handed fh member).imp_right
    rintro ⟨hook, _, registered⟩
    have waited : (state.mount.state.channels fh).ino ∈
        state.mount.state.pendingInos := by
      apply keys.mem_pendingInos.mpr
      exact Option.isSome_of_eq_some registered
    obtain ⟨call, inRange, program, running, safe⟩ := tracked _ waited
    refine ⟨call, ?_, program, running, safe.weaken ?_⟩
    · rwa [List.length_map]
    · exact fun _ _ settled => settled fh member rfl

theorem inOrder_step {store : ContentStore} {state next : Shutdown}
    {event : ShutdownEvent} (inOrder : InOrder state)
    (handsOver : state.HandsOver event)
    (moved : state.step store event = some next) : InOrder next := by
  cases event with
  | mount event =>
      have fits := fits_of_handsOver handsOver
      obtain ⟨mount, stepped, rfl⟩ := Option.map_eq_some_iff.mp moved
      have sound := inOrder.sound.step (certified_hooks True store) fits stepped
      obtain ⟨grows, covered⟩ := keeps_of_step inOrder.sound fits stepped
      have old : ∀ fh ∈ state.opened, (fh < mount.state.nextFileHandle ∧
          mount.state.Covered fh) ∧ Progress mount fh state.phase := by
        intro fh member
        obtain ⟨allocated, isCovered⟩ := inOrder.covered fh member
        refine ⟨⟨Nat.lt_of_lt_of_le allocated grows.next,
          covered fh allocated isCovered⟩, ?_⟩
        exact progress_of_step inOrder.sound fits stepped allocated
          (inOrder.progress fh member)
      have recent : ∀ fh ∈ mount.state.openFiles,
          fh < mount.state.nextFileHandle ∧ mount.state.Covered fh :=
        fun fh isOpen => ⟨sound.1.allocated fh isOpen, Or.inl isOpen⟩
      by_cases running : state.phase = .running
      · refine ⟨sound, ?_, ?_⟩
        · intro fh member
          rw [if_pos running] at member
          rcases List.mem_union_iff.mp member with isOpen | earlier
          · exact recent fh isOpen
          · exact (old fh earlier).1
        · intro fh _
          dsimp only
          rw [running]
          trivial
      · refine ⟨sound, ?_, ?_⟩
        · intro fh member
          rw [if_neg running] at member
          exact (old fh member).1
        · intro fh member
          rw [if_neg running] at member
          exact (old fh member).2
  | snapshot first => exact inOrder_snapshot inOrder moved
  | collect first => exact inOrder_collect inOrder moved
  | finish =>
      simp only [step] at moved
      split at moved
      case h_2 => cases moved
      rename_i calls phase
      rw [Option.ite_none_right_eq_some] at moved
      obtain ⟨allReturned, moved⟩ := moved
      obtain rfl := Option.some.inj moved
      refine ⟨inOrder.sound, inOrder.covered, ?_⟩
      intro fh member
      have progress := inOrder.progress fh member
      rw [phase] at progress
      rcases progress with settled | ⟨call, isCall, tracks⟩
      · exact settled
      · obtain ⟨_, settled⟩ := tracks.reply inOrder.sound.1
          (isSome_reply_of_returned allReturned isCall)
        exact settled

/-- When each release finds the entry of its inode free, or its own, the drain
misses no commit. -/
theorem drained_of_handsOver {store : ContentStore}
    {events : List ShutdownEvent} {final : Shutdown}
    (handsOver : AllSteps (step store) HandsOver new events)
    (ran : exec (step store) new events = some final) : Drained final := by
  have inOrder : InOrder final := by
    apply exec_invariant _ inOrder_new handsOver ran
    exact fun _ _ _ inOrder handsOver moved =>
      inOrder_step inOrder handsOver moved
  intro ended fh member
  have settled := inOrder.progress fh member
  rw [ended] at settled
  exact settled

def runs (thread count : CallId) : List ShutdownEvent :=
  List.replicate count (.mount (.run thread .success))

/-- A file is created, and its handle is open. -/
def created : List ShutdownEvent :=
  .mount (.start 0 (.create rootInode ⟨['f'], validName_f⟩ 420 0 0 none)) ::
    runs 0 5

/-- The drain commits the file. -/
def drainedAlone : List ShutdownEvent :=
  created ++ .snapshot 1 :: runs 1 20 ++
    [.mount (.background (.receive 0)),
      .mount (.background (.process 0 none))] ++
    runs 1 11 ++ [.collect 2, .finish]

theorem drained_of_handsOver_drainedAlone :
    Drained ((exec (step .spelled) new drainedAlone).get (by decide)) :=
  @drained_of_handsOver .spelled drainedAlone _ (by decide)
    (Option.some_get _).symm

/-- The release of the first handle overtakes an open with O_TRUNC.  Its hook
is registered when the handle of that open is released. -/
def overtaken : List ShutdownEvent :=
  created ++ .mount (.start 1 (.openTruncate 2 none)) :: runs 1 2 ++
    .mount (.start 2 (.release 0)) :: runs 2 6 ++ runs 1 9 ++
    .mount (.start 3 (.write 1 0 [1])) :: runs 3 7 ++
    .mount (.start 4 (.release 1)) :: runs 4 6 ++ runs 2 9 ++
    [.snapshot 5, .collect 5, .finish]

/-- The drain ends while the second release still has to commit. -/
theorem not_drained : ¬ ∀ (store : ContentStore) (events : List ShutdownEvent)
    (final : Shutdown), exec (step store) new events = some final →
    Drained final := by
  intro claim
  have settled := claim .spelled overtaken
    ((exec (step .spelled) new overtaken).get (by decide))
    (Option.some_get _).symm (by decide) 1 (by decide)
  have unsettled : (((exec (step .spelled) new overtaken).get
      (by decide)).mount.state.channels 1).isTerminal = false := by decide
  rw [unsettled] at settled
  cases settled

end Shutdown

end HfMount.Streaming
