import HfMount.Streaming.HookCalls

/-!
# What is registered for an inode

After any run of calls and workers, an entry of `pending_commits` belongs to a
hook that will be fulfilled, and it goes only with the fulfilment of that hook.
-/

namespace HfMount.Streaming

open Inode Interleaving Transition

/-- The state of `pending_commits` after a run. -/
structure EntriesInOrder (store : ContentStore) (mount : Mount) : Prop where
  /-- An entry is that of an unfulfilled hook, whose channel is not settled
  unless a call is about to fulfil it; or the fulfilment removes it next. -/
  entry : ∀ ino hook, mount.state.pendingCommits ino = some hook →
    ∃ record, mount.state.hooks hook = some record ∧
      (mount.state.channels record.channel).ino = ino ∧
      (record.value = none ∧
          (mount.state.channels record.channel).commitHook = some hook ∧
          ((mount.state.channels record.channel).isTerminal = false ∨
            mount.view.Somewhere (·.Fulfils record.channel)) ∨
        mount.view.Somewhere (·.Removes record.channel hook))
  /-- An entry goes with the fulfilment of its own hook. -/
  removed : ∀ (event : MountEvent) next,
    (system store).step mount event = some next →
    ∀ ino hook, mount.state.pendingCommits ino = some hook →
      next.state.pendingCommits ino ≠ some hook →
      ∃ thread choice label record, event = .run thread choice ∧
        mount.view.point thread = some label ∧
        mount.state.hooks hook = some record ∧
        label.Removes record.channel hook
  /-- When no call is in progress, an entry is that of an open handle whose
  channel is not settled. -/
  quiet : (∀ thread, mount.view.point thread = none) →
    ∀ ino hook, mount.state.pendingCommits ino = some hook →
      ∃ fh ∈ mount.state.openFiles, (mount.state.channels fh).ino = ino ∧
        (mount.state.channels fh).commitHook = some hook ∧
        (mount.state.channels fh).isTerminal = false

theorem fits_of_not {mount : Mount} {strict : Prop} (never : ¬ strict)
    (event : MountEvent) : mount.Fits (hookProtocol strict) event := by
  cases event with
  | run thread choice => exact fun _ _ holds => absurd holds never
  | start thread call => trivial
  | background worked => trivial

/-- A mount that is reached from an empty one is sound. -/
theorem sound_of_run {strict : Prop} {store : ContentStore}
    {events : List MountEvent} {final : Mount}
    (fits : AllSteps (system store).step (Pool.Fits (hookProtocol strict))
      (Pool.initial .empty) events)
    (ran : exec (system store).step (Pool.initial .empty) events = some final) :
    final.Sound (hookProtocol strict) fun _ _ _ _ => True :=
  (Pool.initial_sound hooksInOrder_empty).exec (certified_hooks strict store)
    fits ran

/-- A registered hook is held by its channel, or its removal is under way. -/
theorem HooksInOrder.entry_of_registered {view : View Label StreamingFs}
    (inOrder : HooksInOrder view) {ino : Ino} {hook : HookId}
    (registered : view.state.pendingCommits ino = some hook) :
    ∃ record, view.state.hooks hook = some record ∧
      (view.state.channels record.channel).ino = ino ∧
      (record.value = none ∧
          (view.state.channels record.channel).commitHook = some hook ∧
          ((view.state.channels record.channel).isTerminal = false ∨
            view.Somewhere (·.Fulfils record.channel)) ∨
        view.Somewhere (·.Removes record.channel hook)) := by
  obtain ⟨record, made, sameIno, held | removes⟩ :=
    inOrder.entry ino hook registered
  · refine ⟨record, made, sameIno, Or.inl ⟨?_, held, ?_⟩⟩
    · have unfulfilled := inOrder.held record.channel hook held
      rw [made] at unfulfilled
      rw [Option.some.inj unfulfilled]
    · cases settled : (view.state.channels record.channel).isTerminal with
      | false => exact Or.inl rfl
      | true =>
          apply Or.inr
          apply inOrder.settled record.channel settled
          rw [held]
          exact Option.some_ne_none hook
  · exact ⟨record, made, sameIno, Or.inr removes⟩

theorem not_somewhere_of_quiet {view : View Label StreamingFs}
    (quiet : ∀ thread, view.point thread = none) (holds : Label → Prop) :
    ¬ view.Somewhere holds := by
  rintro ⟨thread, label, point, _⟩
  rw [quiet thread] at point
  cases point

/-- The entries of `pending_commits` are in order after every run. -/
theorem entries_in_order {store : ContentStore} {events : List MountEvent}
    {final : Mount}
    (ran : exec (system store).step (Pool.initial .empty) events =
      some final) : EntriesInOrder store final := by
  have sound : final.Sound (hookProtocol False) fun _ _ _ _ => True :=
    sound_of_run (allSteps_mono (fun _ event _ => fits_of_not id event)
      (allSteps_of_forall fun _ _ => trivial)) ran
  have inOrder : HooksInOrder final.view := sound.1
  constructor
  · exact fun _ _ => inOrder.entry_of_registered
  · intro event next moved ino hook registered gone
    cases event with
    | start thread call =>
        obtain ⟨_, rfl⟩ := System.start_inv moved
        exact absurd registered gone
    | run thread choice =>
        obtain ⟨label, point, promised⟩ :=
          (sound.run_step (fits_of_not id _) moved).2
        obtain ⟨record, made, removes⟩ :=
          promised.removes ino hook registered gone
        exact ⟨thread, choice, label, record, rfl, point, made, removes⟩
    | background worked =>
        obtain ⟨state, done, rfl⟩ := System.background_inv moved
        have same := (sameHooks_work done).pending
        exact absurd ((congrFun same ino).trans registered) gone
  · intro quiet ino hook registered
    obtain ⟨record, made, sameIno, ⟨_, held, settled⟩ | removes⟩ :=
      inOrder.entry_of_registered registered
    · have unsettled := settled.resolve_right (not_somewhere_of_quiet quiet _)
      refine ⟨record.channel, ?_, sameIno, held, unsettled⟩
      rcases inOrder.handle record.channel (inOrder.made hook record made) with
        isOpen | settled | settles
      · exact isOpen
      · exact absurd settled (by simp [unsettled])
      · exact absurd settles (not_somewhere_of_quiet quiet _)
    · exact absurd removes (not_somewhere_of_quiet quiet _)

def runs (thread count : CallId) : List MountEvent :=
  List.replicate count (.run thread .success)

theorem validName_f : SlashPath.ValidName ['f'] := by decide

/-- A file is created and flushed, which defers its commit. -/
def createdAndFlushed : List MountEvent :=
  .start 0 (.create rootInode ⟨['f'], validName_f⟩ 420 0 0 none) :: runs 0 5 ++
    .start 1 (.flush 0 none) :: runs 1 8

theorem entries_in_order_createdAndFlushed :
    EntriesInOrder .spelled
      ((exec (system .spelled).step (Pool.initial .empty)
        createdAndFlushed).get (by decide)) :=
  entries_in_order (Option.some_get _).symm

end HfMount.Streaming
