import Mathlib.Logic.Basic
import Mathlib.Data.List.Basic

/-!
# Runs of partial step functions

A system is a partial function `step : σ → ε → Option σ`: the event names the
choice made by the environment, and `none` says that the event is not enabled.
A run is a list of events, so a statement about every interleaving is a
statement about every list of events that executes.
-/

namespace HfMount.Transition

variable {σ ε : Type}

/-- Execute a list of events from left to right. -/
def exec (step : σ → ε → Option σ) : σ → List ε → Option σ
  | state, [] => some state
  | state, event :: events =>
      match step state event with
      | some next => exec step next events
      | none => none

/-- Every event of the run is taken in a state that satisfies `good`. -/
def AllSteps (step : σ → ε → Option σ) (good : σ → ε → Prop) :
    σ → List ε → Prop
  | _, [] => True
  | state, event :: events =>
      good state event ∧
        ∀ next, step state event = some next → AllSteps step good next events

instance decidableAllSteps (step : σ → ε → Option σ) (good : σ → ε → Prop)
    [∀ state event, Decidable (good state event)] :
    ∀ state events, Decidable (AllSteps step good state events)
  | _, [] => isTrue trivial
  | state, event :: events =>
      match result : step state event with
      | none =>
          decidable_of_iff (good state event)
            ⟨fun holds => ⟨holds, fun _ equality => by simp [result] at equality⟩,
              fun both => both.1⟩
      | some next =>
          have := decidableAllSteps step good next events
          decidable_of_iff
            (good state event ∧ AllSteps step good next events)
            ⟨fun both => ⟨both.1, fun other equality => by
                rw [result] at equality
                exact Option.some.inj equality ▸ both.2⟩,
              fun both => ⟨both.1, both.2 next result⟩⟩

variable {step : σ → ε → Option σ}

@[simp] theorem exec_nil (state : σ) : exec step state [] = some state := rfl

theorem exec_cons_iff {state final : σ} {event : ε} {events : List ε} :
    exec step state (event :: events) = some final ↔
      ∃ next, step state event = some next ∧
        exec step next events = some final := by
  rw [exec]
  cases result : step state event with
  | none => simp
  | some next => simp

theorem exec_append_iff {state final : σ} {first second : List ε} :
    exec step state (first ++ second) = some final ↔
      ∃ middle, exec step state first = some middle ∧
        exec step middle second = some final := by
  induction first generalizing state with
  | nil => simp
  | cons event events ih =>
      rw [List.cons_append, exec_cons_iff]
      constructor
      · rintro ⟨next, stepped, ran⟩
        obtain ⟨middle, ranFirst, ranSecond⟩ := ih.mp ran
        exact ⟨middle, exec_cons_iff.mpr ⟨next, stepped, ranFirst⟩, ranSecond⟩
      · rintro ⟨middle, ranFirst, ranSecond⟩
        obtain ⟨next, stepped, ranRest⟩ := exec_cons_iff.mp ranFirst
        exact ⟨next, stepped, ih.mpr ⟨middle, ranRest, ranSecond⟩⟩

/-- Induction over runs: an invariant that every good step preserves holds at
the end of every run whose steps are all good. -/
theorem exec_invariant {good : σ → ε → Prop} {invariant : σ → Prop}
    (preserved : ∀ state event next, invariant state → good state event →
      step state event = some next → invariant next)
    {state final : σ} {events : List ε}
    (initial : invariant state) (allGood : AllSteps step good state events)
    (run : exec step state events = some final) : invariant final := by
  induction events generalizing state with
  | nil =>
      obtain rfl : state = final := by simpa using run
      exact initial
  | cons event events ih =>
      obtain ⟨next, stepped, rest⟩ := exec_cons_iff.mp run
      have nextInvariant := preserved state event next initial allGood.1 stepped
      exact ih nextInvariant (allGood.2 next stepped) rest

/-- An invariant that every step preserves holds at the end of every run. -/
theorem exec_invariant_of_step {invariant : σ → Prop}
    (preserved : ∀ state event next, invariant state →
      step state event = some next → invariant next)
    {state final : σ} {events : List ε} (initial : invariant state)
    (run : exec step state events = some final) : invariant final := by
  induction events generalizing state with
  | nil =>
      obtain rfl : state = final := by simpa using run
      exact initial
  | cons event events ih =>
      obtain ⟨next, stepped, rest⟩ := exec_cons_iff.mp run
      exact ih (preserved state event next initial stepped) rest

theorem AllSteps.cons {good : σ → ε → Prop} {state next : σ} {event : ε}
    {events : List ε} (isGood : good state event)
    (stepped : step state event = some next)
    (rest : AllSteps step good next events) :
    AllSteps step good state (event :: events) := by
  refine ⟨isGood, fun other also => ?_⟩
  obtain rfl := Option.some.inj (stepped.symm.trans also)
  exact rest

theorem allSteps_cons_iff {good : σ → ε → Prop} {state next : σ} {event : ε}
    {events : List ε} (stepped : step state event = some next) :
    AllSteps step good state (event :: events) ↔
      good state event ∧ AllSteps step good next events :=
  ⟨fun all => ⟨all.1, all.2 next stepped⟩,
    fun both => .cons both.1 stepped both.2⟩

theorem AllSteps.and {first second : σ → ε → Prop} {state : σ}
    {events : List ε} (left : AllSteps step first state events)
    (right : AllSteps step second state events) :
    AllSteps step (fun state event => first state event ∧ second state event)
      state events := by
  induction events generalizing state with
  | nil => trivial
  | cons event events ih =>
      exact ⟨⟨left.1, right.1⟩, fun next stepped =>
        ih (left.2 next stepped) (right.2 next stepped)⟩

theorem allSteps_mono {weak strong : σ → ε → Prop}
    (weaken : ∀ state event, strong state event → weak state event)
    {state : σ} {events : List ε}
    (allStrong : AllSteps step strong state events) :
    AllSteps step weak state events := by
  induction events generalizing state with
  | nil => trivial
  | cons event events ih =>
      exact ⟨weaken state event allStrong.1,
        fun next stepped => ih (allStrong.2 next stepped)⟩

theorem allSteps_of_forall {good : ε → Prop} {state : σ} {events : List ε}
    (allGood : ∀ event ∈ events, good event) :
    AllSteps step (fun _ event => good event) state events := by
  induction events generalizing state with
  | nil => trivial
  | cons event events ih =>
      refine ⟨allGood event List.mem_cons_self, fun _ _ => ih ?_⟩
      exact fun later member => allGood later (List.mem_cons_of_mem _ member)

/-- The first part of a good run is good. -/
theorem AllSteps.first {good : σ → ε → Prop} {state : σ}
    {first second : List ε}
    (allGood : AllSteps step good state (first ++ second)) :
    AllSteps step good state first := by
  induction first generalizing state with
  | nil => trivial
  | cons event events ih =>
      exact ⟨allGood.1, fun next stepped => ih (allGood.2 next stepped)⟩

/-- The rest of a good run is a good run from where its first part ends. -/
theorem AllSteps.rest {good : σ → ε → Prop} {state middle : σ}
    {first second : List ε}
    (allGood : AllSteps step good state (first ++ second))
    (run : exec step state first = some middle) :
    AllSteps step good middle second := by
  induction first generalizing state with
  | nil =>
      obtain rfl : state = middle := by simpa using run
      exact allGood
  | cons event events ih =>
      obtain ⟨next, stepped, rest⟩ := exec_cons_iff.mp run
      exact ih (allGood.2 next stepped) rest

/-- Some state of the run satisfies the property. -/
def Sometime (step : σ → ε → Option σ) (holds : σ → Prop) (state : σ)
    (events : List ε) : Prop :=
  ∃ earlier later middle, events = earlier ++ later ∧
    exec step state earlier = some middle ∧ holds middle

theorem Sometime.of_start {holds : σ → Prop} {state : σ} (now : holds state)
    (events : List ε) : Sometime step holds state events :=
  ⟨[], events, state, rfl, rfl, now⟩

theorem Sometime.cons {holds : σ → Prop} {state next : σ} {event : ε}
    {events : List ε} (stepped : step state event = some next)
    (sometime : Sometime step holds next events) :
    Sometime step holds state (event :: events) := by
  obtain ⟨earlier, later, middle, rfl, ran, now⟩ := sometime
  exact ⟨event :: earlier, later, middle, rfl,
    exec_cons_iff.mpr ⟨next, stepped, ran⟩, now⟩

/-- An invariant that good steps preserve until the property holds is there at
the end, unless the property held on the way. -/
theorem exec_invariant_or_sometime {good : σ → ε → Prop}
    {invariant holds : σ → Prop}
    (preserved : ∀ state event next, invariant state → good state event →
      step state event = some next → invariant next ∨ holds next)
    {state final : σ} {events : List ε}
    (initial : invariant state ∨ holds state)
    (allGood : AllSteps step good state events)
    (run : exec step state events = some final) :
    invariant final ∨ Sometime step holds state events := by
  rcases initial with kept | now
  · induction events generalizing state with
    | nil =>
        obtain rfl : state = final := by simpa using run
        exact Or.inl kept
    | cons event events ih =>
        obtain ⟨next, stepped, rest⟩ := exec_cons_iff.mp run
        rcases preserved state event next kept allGood.1 stepped with
          still | now
        · rcases ih (allGood.2 next stepped) rest still with
            atEnd | sometime
          · exact Or.inl atEnd
          · exact Or.inr (sometime.cons stepped)
        · exact Or.inr ((Sometime.of_start now events).cons stepped)
  · exact Or.inr (.of_start now events)

end HfMount.Transition
