import HfMount.Lib.SlashPath
import HfMount.Lib.Transition
import Mathlib.Logic.Function.Basic

/-!
# The queue of remote deletes

`FlushManager` collects the paths that the next flush cycle deletes on the
Hub.  `flushPendingDeletes` takes the whole queue, makes one Hub call and puts
the paths back when the call fails; it may run several times at once.  A
cancellation only sees the queue, so a batch that was already taken escapes
it.
-/

namespace HfMount.Flush

open SlashPath Transition

/-- A call of `flushPendingDeletes` that has taken its paths: before its Hub
call, during it, and after its failure. -/
inductive DeleteBatch where
  | taken (paths : List Path)
  | calling (paths : List Path)
  | failed (paths : List Path)
  deriving DecidableEq

@[simp] def DeleteBatch.paths : DeleteBatch → List Path
  | .taken paths | .calling paths | .failed paths => paths

/-- `batch` holds the calls in progress and `hubCalls` every Hub call that was
started, with the number of its batch. -/
structure FlushManager where
  pendingDeletes : List Path
  batch : Nat → Option DeleteBatch
  nextBatch : Nat
  hubCalls : List (Nat × List Path)

namespace FlushManager

def new : FlushManager :=
  { pendingDeletes := []
    batch := fun _ => none
    nextBatch := 0
    hubCalls := [] }

def enqueueDelete (fm : FlushManager) (path : Path) : FlushManager :=
  { fm with pendingDeletes := fm.pendingDeletes ++ [path] }

def cancelDelete (fm : FlushManager) (path : Path) : FlushManager :=
  { fm with pendingDeletes := fm.pendingDeletes.filter (· ≠ path) }

def cancelDeletePrefix (fm : FlushManager) (start : Path) : FlushManager :=
  { fm with
    pendingDeletes := fm.pendingDeletes.filter fun path =>
      !start.isPrefixOf path }

/-- `flushPendingDeletes` takes the queue, unless it is empty. -/
def takeDeletes (fm : FlushManager) : Option FlushManager :=
  if fm.pendingDeletes.isEmpty then none
  else some { fm with
    pendingDeletes := []
    batch := Function.update fm.batch fm.nextBatch
      (some (.taken fm.pendingDeletes))
    nextBatch := fm.nextBatch + 1 }

def startHubCall (fm : FlushManager) (id : Nat) : Option FlushManager :=
  match fm.batch id with
  | some (.taken paths) => some { fm with
      batch := Function.update fm.batch id (some (.calling paths))
      hubCalls := fm.hubCalls ++ [(id, paths)] }
  | _ => none

def finishHubCall (fm : FlushManager) (id : Nat) (succeeded : Bool) :
    Option FlushManager :=
  match fm.batch id with
  | some (.calling paths) => some { fm with
      batch := Function.update fm.batch id
        (if succeeded then none else some (.failed paths)) }
  | _ => none

/-- The paths of a failed batch go back to the queue. -/
def requeue (fm : FlushManager) (id : Nat) : Option FlushManager :=
  match fm.batch id with
  | some (.failed paths) => some { fm with
      pendingDeletes := fm.pendingDeletes ++ paths
      batch := Function.update fm.batch id none }
  | _ => none

end FlushManager

inductive DeleteEvent where
  | enqueue (path : Path)
  | cancel (path : Path)
  | cancelPrefix (start : Path)
  | take
  | hubStart (id : Nat)
  | hubDone (id : Nat) (succeeded : Bool)
  | requeue (id : Nat)
  deriving DecidableEq

/-- The cancellation removes `path` from the queue. -/
def DeleteEvent.Cancels (path : Path) : DeleteEvent → Prop
  | .cancel other => other = path
  | .cancelPrefix start => start <+: path
  | _ => False

namespace FlushManager

def step (fm : FlushManager) : DeleteEvent → Option FlushManager
  | .enqueue path => some (fm.enqueueDelete path)
  | .cancel path => some (fm.cancelDelete path)
  | .cancelPrefix start => some (fm.cancelDeletePrefix start)
  | .take => fm.takeDeletes
  | .hubStart id => fm.startHubCall id
  | .hubDone id succeeded => fm.finishHubCall id succeeded
  | .requeue id => fm.requeue id

/-! ## What each step does -/

theorem takeDeletes_eq_some {fm next : FlushManager}
    (stepped : fm.takeDeletes = some next) :
    next = { fm with
      pendingDeletes := []
      batch := Function.update fm.batch fm.nextBatch
        (some (.taken fm.pendingDeletes))
      nextBatch := fm.nextBatch + 1 } := by
  unfold takeDeletes at stepped
  split at stepped
  · cases stepped
  · exact (Option.some.inj stepped).symm

theorem startHubCall_eq_some {fm next : FlushManager} {id : Nat}
    (stepped : fm.startHubCall id = some next) :
    ∃ paths, fm.batch id = some (.taken paths) ∧
      next = { fm with
        batch := Function.update fm.batch id (some (.calling paths))
        hubCalls := fm.hubCalls ++ [(id, paths)] } := by
  unfold startHubCall at stepped
  split at stepped
  · rename_i paths held
    exact ⟨paths, held, (Option.some.inj stepped).symm⟩
  · cases stepped

theorem finishHubCall_eq_some {fm next : FlushManager} {id : Nat}
    {succeeded : Bool} (stepped : fm.finishHubCall id succeeded = some next) :
    ∃ paths, fm.batch id = some (.calling paths) ∧
      next = { fm with
        batch := Function.update fm.batch id
          (if succeeded then none else some (.failed paths)) } := by
  unfold finishHubCall at stepped
  split at stepped
  · rename_i paths held
    exact ⟨paths, held, (Option.some.inj stepped).symm⟩
  · cases stepped

theorem requeue_eq_some {fm next : FlushManager} {id : Nat}
    (stepped : fm.requeue id = some next) :
    ∃ paths, fm.batch id = some (.failed paths) ∧
      next = { fm with
        pendingDeletes := fm.pendingDeletes ++ paths
        batch := Function.update fm.batch id none } := by
  unfold requeue at stepped
  split at stepped
  · rename_i paths held
    exact ⟨paths, held, (Option.some.inj stepped).symm⟩
  · cases stepped

theorem not_mem_cancelled {fm next : FlushManager} {event : DeleteEvent}
    {path : Path} (cancels : event.Cancels path)
    (stepped : fm.step event = some next) :
    path ∉ next.pendingDeletes ∧ next.batch = fm.batch ∧
      next.hubCalls = fm.hubCalls := by
  cases event with
  | cancel other =>
      obtain rfl : other = path := cancels
      obtain rfl := Option.some.inj stepped
      exact ⟨by simp [cancelDelete], rfl, rfl⟩
  | cancelPrefix start =>
      have covered : start <+: path := cancels
      obtain rfl := Option.some.inj stepped
      refine ⟨?_, rfl, rfl⟩
      intro member
      have kept := (List.mem_filter.mp member).2
      simp [List.isPrefixOf_iff_prefix.mpr covered] at kept
  | enqueue _ | take | hubStart _ | hubDone _ _ | requeue _ =>
      exact cancels.elim

/-! ## A cancelled delete -/

/-- After the cancellation of `path` in the state `atCancel`: the path is not
queued, every batch that holds it was in flight then and has only moved on,
and every later Hub call with it belongs to a batch that was taken then. -/
structure Cancelled (atCancel : FlushManager) (path : Path)
    (fm : FlushManager) : Prop where
  notQueued : path ∉ fm.pendingDeletes
  inFlight : ∀ id batch, fm.batch id = some batch → path ∈ batch.paths →
    ∃ earlier, atCancel.batch id = some earlier ∧ path ∈ earlier.paths ∧
      ∀ paths, batch = .taken paths → earlier = .taken paths
  grown : atCancel.hubCalls.length ≤ fm.hubCalls.length
  calls : ∀ id paths, (id, paths) ∈ fm.hubCalls.drop atCancel.hubCalls.length →
    path ∈ paths → atCancel.batch id = some (.taken paths)

theorem cancelled_at_cancel {fm next : FlushManager} {event : DeleteEvent}
    {path : Path} (cancels : event.Cancels path)
    (stepped : fm.step event = some next) : Cancelled fm path next := by
  obtain ⟨notQueued, batch, hubCalls⟩ := not_mem_cancelled cancels stepped
  refine ⟨notQueued, ?_, ?_, ?_⟩
  · intro id held found member
    rw [batch] at found
    exact ⟨held, found, member, fun paths equality => equality⟩
  · exact hubCalls ▸ Nat.le_refl _
  · rw [hubCalls, List.drop_length]
    simp

/-- Replacing one batch by a later phase of itself, or dropping it, keeps the
in-flight part of `Cancelled`. -/
theorem Cancelled.update {atCancel fm : FlushManager} {path : Path}
    (cancelled : Cancelled atCancel path fm) {id : Nat} {held : DeleteBatch}
    (found : fm.batch id = some held) {replacement : Option DeleteBatch}
    (samePaths : ∀ batch, replacement = some batch →
      batch.paths = held.paths ∧ ∀ paths, batch ≠ .taken paths) :
    ∀ other batch,
      Function.update fm.batch id replacement other = some batch →
      path ∈ batch.paths →
      ∃ earlier, atCancel.batch other = some earlier ∧ path ∈ earlier.paths ∧
        ∀ paths, batch = .taken paths → earlier = .taken paths := by
  intro other batch lookup member
  by_cases same : other = id
  · subst same
    rw [Function.update_self] at lookup
    obtain ⟨paths, notTaken⟩ := samePaths batch lookup
    rw [paths] at member
    obtain ⟨earlier, earlierFound, earlierMember, _⟩ :=
      cancelled.inFlight other held found member
    exact ⟨earlier, earlierFound, earlierMember,
      fun taken equality => absurd equality (notTaken taken)⟩
  · rw [Function.update_of_ne same] at lookup
    exact cancelled.inFlight other batch lookup member

theorem Cancelled.step {atCancel fm next : FlushManager} {path : Path}
    {event : DeleteEvent} (cancelled : Cancelled atCancel path fm)
    (notEnqueued : event ≠ .enqueue path)
    (notRequeued : ∀ id batch, event = .requeue id →
      atCancel.batch id = some batch → path ∉ batch.paths)
    (stepped : fm.step event = some next) : Cancelled atCancel path next := by
  cases event with
  | enqueue other =>
      obtain rfl := Option.some.inj stepped
      refine { cancelled with notQueued := ?_ }
      intro member
      rcases List.mem_append.mp member with earlier | last
      · exact cancelled.notQueued earlier
      · exact notEnqueued (by rw [List.mem_singleton.mp last])
  | cancel other =>
      obtain rfl := Option.some.inj stepped
      exact { cancelled with
        notQueued := fun member =>
          cancelled.notQueued (List.mem_of_mem_filter member) }
  | cancelPrefix start =>
      obtain rfl := Option.some.inj stepped
      exact { cancelled with
        notQueued := fun member =>
          cancelled.notQueued (List.mem_of_mem_filter member) }
  | take =>
      obtain rfl := takeDeletes_eq_some stepped
      refine { cancelled with notQueued := List.not_mem_nil, inFlight := ?_ }
      intro id batch lookup member
      by_cases fresh : id = fm.nextBatch
      · subst fresh
        dsimp only at lookup
        rw [Function.update_self] at lookup
        obtain rfl := Option.some.inj lookup
        exact absurd member cancelled.notQueued
      · dsimp only at lookup
        rw [Function.update_of_ne fresh] at lookup
        exact cancelled.inFlight id batch lookup member
  | hubStart id =>
      obtain ⟨paths, found, rfl⟩ := startHubCall_eq_some stepped
      refine ⟨cancelled.notQueued, ?_, ?_, ?_⟩
      · apply cancelled.update found
        rintro batch ⟨⟩
        exact ⟨rfl, by simp⟩
      · have grown := cancelled.grown
        simp only [List.length_append]
        omega
      · intro other called member holds
        dsimp only at member
        rw [List.drop_append_of_le_length cancelled.grown] at member
        rcases List.mem_append.mp member with earlier | last
        · exact cancelled.calls other called earlier holds
        · obtain ⟨rfl, rfl⟩ := Prod.mk.inj (List.mem_singleton.mp last)
          obtain ⟨earlier, earlierFound, _, taken⟩ :=
            cancelled.inFlight other _ found holds
          rw [earlierFound, taken called rfl]
  | hubDone id succeeded =>
      obtain ⟨paths, found, rfl⟩ := finishHubCall_eq_some stepped
      refine { cancelled with inFlight := cancelled.update found ?_ }
      cases succeeded with
      | true => simp
      | false =>
          rintro batch ⟨⟩
          exact ⟨rfl, by simp⟩
  | requeue id =>
      obtain ⟨paths, found, rfl⟩ := requeue_eq_some stepped
      refine { cancelled with
        notQueued := ?_
        inFlight := cancelled.update found (by simp) }
      intro member
      rcases List.mem_append.mp member with earlier | returned
      · exact cancelled.notQueued earlier
      · obtain ⟨batch, earlierFound, earlierMember, _⟩ :=
          cancelled.inFlight id _ found returned
        exact notRequeued id batch rfl earlierFound earlierMember

theorem Cancelled.exec {atCancel fm final : FlushManager} {path : Path}
    {events : List DeleteEvent} (cancelled : Cancelled atCancel path fm)
    (notEnqueued : .enqueue path ∉ events)
    (notRequeued : ∀ id batch, atCancel.batch id = some batch →
      path ∈ batch.paths → .requeue id ∉ events)
    (run : Transition.exec FlushManager.step fm events = some final) :
    Cancelled atCancel path final := by
  induction events generalizing fm with
  | nil =>
      obtain rfl : fm = final := by simpa using run
      exact cancelled
  | cons event events ih =>
      obtain ⟨next, stepped, rest⟩ := exec_cons_iff.mp run
      apply ih (cancelled.step ?_ ?_ stepped)
      · exact fun member => notEnqueued (List.mem_cons_of_mem _ member)
      · exact fun id batch found holds member =>
          notRequeued id batch found holds (List.mem_cons_of_mem _ member)
      · exact rest
      · rintro rfl
        exact notEnqueued List.mem_cons_self
      · rintro id batch rfl found holds
        exact notRequeued id batch found holds List.mem_cons_self

/-- In every interleaving, once a delete is cancelled and not queued again, a
Hub call that starts later sends it only for a batch that had already been
taken, as long as no batch that was in flight with it is put back. -/
theorem cancelled_delete_sent_only_if_taken {before after : List DeleteEvent}
    {cancellation : DeleteEvent} {path : Path} {atCancel final : FlushManager}
    (ranBefore : exec step new before = some atCancel)
    (run : exec step new (before ++ cancellation :: after) = some final)
    (cancels : cancellation.Cancels path)
    (notEnqueued : .enqueue path ∉ after)
    (notRequeued : ∀ id batch, atCancel.batch id = some batch →
      path ∈ batch.paths → .requeue id ∉ after) :
    ∀ id paths, (id, paths) ∈ final.hubCalls.drop atCancel.hubCalls.length →
      path ∈ paths → atCancel.batch id = some (.taken paths) := by
  obtain ⟨middle, ranMiddle, ranRest⟩ := exec_append_iff.mp run
  obtain rfl : atCancel = middle := Option.some.inj (ranBefore.symm.trans ranMiddle)
  obtain ⟨next, cancelled, ranAfter⟩ := exec_cons_iff.mp ranRest
  exact ((cancelled_at_cancel cancels cancelled).exec notEnqueued notRequeued
    ranAfter).calls

/-- `a` was taken once and queued again. -/
def queuedTwice : List DeleteEvent :=
  [.enqueue ['a'], .take, .enqueue ['a'], .enqueue ['b']]

theorem cancelled_delete_sent_only_if_taken_queued_twice :
    ((exec step new queuedTwice).get (by decide)).batch 0 =
      some (.taken [['a']]) :=
  @cancelled_delete_sent_only_if_taken queuedTwice
    [.hubStart 0, .take, .hubStart 1] (.cancel ['a']) ['a'] _
    ((exec step new (queuedTwice ++
      .cancel ['a'] :: [.hubStart 0, .take, .hubStart 1])).get (by decide))
    (Option.some_get _).symm (Option.some_get _).symm rfl (by decide)
    (by simp) 0 [['a']] (by decide) (by decide)

/-- A batch that was taken before the cancellation is sent after it. -/
theorem cancelled_delete_sent :
    ¬ ∀ (before after : List DeleteEvent) (cancellation : DeleteEvent)
      (path : Path) (atCancel final : FlushManager),
      exec step new before = some atCancel →
      exec step new (before ++ cancellation :: after) = some final →
      cancellation.Cancels path → .enqueue path ∉ after →
      ∀ id paths,
        (id, paths) ∈ final.hubCalls.drop atCancel.hubCalls.length →
        path ∉ paths := by
  intro claim
  exact claim [.enqueue ['a'], .take] [.hubStart 0] (.cancel ['a']) ['a'] _ _
    rfl rfl rfl (by decide) 0 [['a']] (by decide) (by decide)

end FlushManager

end HfMount.Flush
