import HfMount.Lib.Interleaving

/-!
# Programs that run alone

A program runs to its end while only background work goes on beside it.  When
no background work shows in a view of the state, weakest preconditions over the
view decide what a program can end with.
-/

namespace HfMount.Interleaving

namespace Program

variable {Label Choice State Seen α β : Type}

/-- The program runs to its end, with background work between its steps. -/
inductive Runs (background : State → State → Prop) :
    Program Label Choice State α → State → α → State → Prop
  | done (value : α) (state : State) :
      Runs background (.done value) state value state
  | step {label : Label} {action : Choice → State → Option State}
      {next : Choice → State → Program Label Choice State α}
      {choice : Choice} {state middle final : State} {value : α} :
      action choice state = some middle →
      Runs background (next choice state) middle value final →
      Runs background (.step label action next) state value final
  | work {program : Program Label Choice State α}
      {state middle final : State} {value : α} :
      background state middle → Runs background program middle value final →
      Runs background program state value final

/-- The run of a program by a script of its choices and of background work. -/
def follow {Work : Type} (work : State → Work → Option State) :
    List (Choice ⊕ Work) → Program Label Choice State α → State →
      Option (α × State)
  | [], .done value, state => some (value, state)
  | .inl choice :: script, .step _ action next, state =>
      (action choice state).bind fun middle =>
        follow work script (next choice state) middle
  | .inr worked :: script, program, state =>
      (work state worked).bind fun middle => follow work script program middle
  | _, _, _ => none

theorem runs_of_follow {Work : Type} {work : State → Work → Option State}
    {script : List (Choice ⊕ Work)} {program : Program Label Choice State α}
    {state final : State} {value : α}
    (followed : follow work script program state = some (value, final)) :
    program.Runs (fun state next => ∃ worked, work state worked = some next)
      state value final := by
  induction script generalizing program state with
  | nil =>
      cases program with
      | done other =>
          obtain ⟨rfl, rfl⟩ := Prod.mk.inj (Option.some.inj followed)
          exact .done other state
      | step label action next => cases followed
  | cons first script ih =>
      cases first with
      | inl choice =>
          cases program with
          | done other => cases followed
          | step label action next =>
              obtain ⟨middle, stepped, rest⟩ :=
                Option.bind_eq_some_iff.mp followed
              exact .step stepped (ih rest)
      | inr worked =>
          have bound : (work state worked).bind
              (fun middle => follow work script program middle) =
                some (value, final) := by
            cases program <;> exact followed
          obtain ⟨middle, moved, rest⟩ := Option.bind_eq_some_iff.mp bound
          exact .work ⟨worked, moved⟩ (ih rest)

variable (view : State → Seen)

/-- Whatever the program does from a state with this view, it ends with a
value and a view that satisfy `post`. -/
def Ensures : Program Label Choice State α → Seen → (α → Seen → Prop) → Prop
  | .done value, seen, post => post value seen
  | .step _ action next, seen, post =>
      ∀ choice state middle, view state = seen →
        action choice state = some middle →
        Ensures (next choice state) (view middle) post

variable {view} {seen : Seen} {program : Program Label Choice State α}
  {post stronger : α → Seen → Prop}

theorem Runs.ensured {background : State → State → Prop}
    (hidden : ∀ state next, background state next → view next = view state)
    {state final : State} {value : α}
    (runs : program.Runs background state value final)
    (ensures : program.Ensures view (view state) post) :
    post value (view final) := by
  induction runs with
  | done value state => exact ensures
  | step stepped _ ih => exact ih (ensures _ _ _ rfl stepped)
  | work moved _ ih =>
      apply ih
      rw [hidden _ _ moved]
      exact ensures

theorem Ensures.mono (ensures : program.Ensures view seen stronger)
    (weaker : ∀ value seen, stronger value seen → post value seen) :
    program.Ensures view seen post := by
  induction program generalizing seen with
  | done value => exact weaker value seen ensures
  | step label action next ih =>
      intro choice state middle isSeen stepped
      exact ih choice state (ensures choice state middle isSeen stepped)

theorem ensures_bind {continuation : α → Program Label Choice State β}
    {post : β → Seen → Prop} :
    (program.bind continuation).Ensures view seen post ↔
      program.Ensures view seen fun value seen =>
        (continuation value).Ensures view seen post := by
  induction program generalizing seen with
  | done value => exact Iff.rfl
  | step label action next ih =>
      refine forall_congr' fun choice => forall_congr' fun state => ?_
      exact forall_congr' fun middle => imp_congr_right fun _ =>
        imp_congr_right fun _ => ih choice state

theorem ensures_perform {label : Label} {ready : State → Bool}
    {action : Choice → State → State × α}
    (after : ∀ choice state, view state = seen → ready state = true →
      post (action choice state).2 (view (action choice state).1)) :
    (perform label ready action).Ensures view seen post := by
  intro choice state middle isSeen stepped
  dsimp only at stepped
  split at stepped <;> rename_i isReady
  · obtain rfl := Option.some.inj stepped
    exact after choice state isSeen isReady
  · cases stepped

/-- A step that does not show. -/
theorem ensures_hidden {label : Label} {ready : State → Bool}
    {action : Choice → State → State × α}
    (hidden : ∀ choice state, view (action choice state).1 = view state)
    (after : ∀ value, post value seen) :
    (perform label ready action).Ensures view seen post := by
  apply ensures_perform
  intro choice state isSeen _
  rw [hidden, isSeen]
  exact after _

theorem ensures_read {label : Label} {look : State → α}
    (after : ∀ state, view state = seen → post (look state) seen) :
    (read label look : Program Label Choice State α).Ensures view seen post := by
  apply ensures_perform
  intro choice state isSeen _
  rw [isSeen]
  exact after state isSeen

theorem ensures_modify {label : Label} {change : State → State}
    {post : Unit → Seen → Prop}
    (after : ∀ state, view state = seen → post () (view (change state))) :
    (modify label change : Program Label Choice State Unit).Ensures view seen
      post := by
  apply ensures_perform
  intro choice state isSeen _
  exact after state isSeen

end Program

end HfMount.Interleaving
