import Mathlib.Data.List.Nodup
import Mathlib.Logic.Relation

/-!
# Worklists

A worklist loop pops the top of a stack, looks at it and pushes its
successors, the last one first to come.  `Walk` lists what such a loop visits.
On a forest it visits nothing twice, so a loop that takes out what it visits
meets every item as it was before the loop.
-/

namespace HfMount.Worklist

variable {α σ : Type}

/-- Leaves the loop at the first hit.  The head of the stack is its top;
`none` when `fuel` visits do not empty it. -/
def search (next : α → List α) (hit : α → Bool) :
    Nat → List α → Option Bool
  | _, [] => some false
  | 0, _ :: _ => none
  | fuel + 1, current :: stack =>
      if hit current then some true
      else search next hit fuel (next current ++ stack)

/-- Takes every visited item out of a state, which also says what its
successors are. -/
def drain (next : σ → α → List α) (drop : σ → α → σ) :
    Nat → σ → List α → Option σ
  | _, state, [] => some state
  | 0, _, _ :: _ => none
  | fuel + 1, state, current :: stack =>
      drain next drop fuel (drop state current) (next state current ++ stack)

/-- A loop that is at `upper` comes to `lower`. -/
abbrev Leads (next : α → List α) : α → α → Prop :=
  Relation.ReflTransGen fun upper lower => lower ∈ next upper

/-- A loop that nothing stops empties the stack and visits these items. -/
inductive Walk (next : α → List α) : List α → List α → Prop where
  | done : Walk next [] []
  | visit {current : α} {stack visited : List α} :
      Walk next (next current ++ stack) visited →
      Walk next (current :: stack) (current :: visited)

variable {next : α → List α} {stack visited : List α}

namespace Walk

theorem append {other rest : List α} (walk : Walk next stack visited)
    (later : Walk next other rest) :
    Walk next (stack ++ other) (visited ++ rest) := by
  induction walk with
  | done => exact later
  | visit _ ih =>
      rw [List.append_assoc] at ih
      exact .visit ih

/-- The items of a stack are worked off one after the other. -/
theorem flatMap {walks : α → List α}
    (each : ∀ item ∈ stack, Walk next [item] (walks item)) :
    Walk next stack (stack.flatMap walks) := by
  induction stack with
  | nil => exact .done
  | cons item stack ih =>
      have first := each item List.mem_cons_self
      exact first.append (ih fun other listed =>
        each other (List.mem_cons_of_mem _ listed))

theorem tail {current : α} (walk : Walk next [current] visited) :
    Walk next (next current) visited.tail := by
  cases walk with
  | visit later =>
      rw [List.append_nil] at later
      exact later

/-- What is visited is what the stack leads to. -/
theorem mem_iff (walk : Walk next stack visited) {lower : α} :
    lower ∈ visited ↔ ∃ upper ∈ stack, Leads next upper lower := by
  induction walk with
  | done => simp
  | @visit current stack visited _ ih =>
      rw [List.mem_cons, ih]
      constructor
      · rintro (rfl | ⟨upper, pushed, leads⟩)
        · exact ⟨lower, List.mem_cons_self, .refl⟩
        · rcases List.mem_append.mp pushed with below | waiting
          · exact ⟨current, List.mem_cons_self, .head below leads⟩
          · exact ⟨upper, List.mem_cons_of_mem _ waiting, leads⟩
      · rintro ⟨upper, listed, leads⟩
        rcases List.mem_cons.mp listed with rfl | waiting
        · rcases Relation.ReflTransGen.cases_head leads with
            same | ⟨child, below, rest⟩
          · exact Or.inl same.symm
          · exact Or.inr ⟨child, List.mem_append_left _ below, rest⟩
        · exact Or.inr ⟨upper, List.mem_append_right _ waiting, leads⟩

/-- A walk only depends on the successors of what it visits. -/
theorem congr {other : α → List α} (walk : Walk next stack visited)
    (same : ∀ item ∈ visited, other item = next item) :
    Walk other stack visited := by
  induction walk with
  | done => exact .done
  | visit _ ih =>
      apply visit
      rw [same _ List.mem_cons_self]
      exact ih fun item member => same item (List.mem_cons_of_mem _ member)

/-- A search that has as much fuel as there is to visit ends, and finds what
is there. -/
theorem search_eq (walk : Walk next stack visited) (hit : α → Bool)
    {fuel : Nat} (enough : visited.length ≤ fuel) :
    search next hit fuel stack = some (visited.any hit) := by
  induction walk generalizing fuel with
  | done => cases fuel <;> rfl
  | @visit current stack visited _ ih =>
      cases fuel with
      | zero => simp at enough
      | succ fuel =>
          have rest := ih (Nat.le_of_succ_le_succ enough)
          unfold search
          rw [rest, List.any_cons]
          cases hit current <;> rfl

/-- Where taking out an item changes no other item's successors and nothing is
visited twice, the loop takes out what the walk visits. -/
theorem drain_eq {successors : σ → α → List α} {drop : σ → α → σ} {state : σ}
    (walk : Walk (successors state) stack visited) (once : visited.Nodup)
    (dropped : ∀ (state : σ) {item other : α}, other ≠ item →
      successors (drop state item) other = successors state other)
    {fuel : Nat} (enough : visited.length ≤ fuel) :
    drain successors drop fuel state stack =
      some (visited.foldl drop state) := by
  induction fuel generalizing state stack visited with
  | zero =>
      cases walk with
      | done => rfl
      | visit _ => simp at enough
  | succ fuel ih =>
      cases walk with
      | done => rfl
      | @visit current stack visited later =>
          obtain ⟨fresh, once⟩ := List.nodup_cons.mp once
          unfold drain
          rw [List.foldl_cons]
          apply ih _ once (Nat.le_of_succ_le_succ enough)
          apply later.congr
          intro item member
          apply dropped
          rintro rfl
          exact fresh member

end Walk

/-- Every item is the successor of at most one other, once, and nothing leads
back to itself. -/
structure Forest (next : α → List α) : Prop where
  nodup : ∀ upper, (next upper).Nodup
  parent : ∀ {left right lower}, lower ∈ next left → lower ∈ next right →
    left = right
  acyclic : ∀ {upper lower}, lower ∈ next upper → ¬ Leads next lower upper

namespace Forest

variable {upper parent lower : α}

/-- What leads to a child is the child itself or leads to its parent. -/
theorem leads_child_iff (forest : Forest next) (child : lower ∈ next parent) :
    Leads next upper lower ↔ lower = upper ∨ Leads next upper parent := by
  constructor
  · intro leads
    rcases Relation.ReflTransGen.cases_tail leads with
      same | ⟨other, above, step⟩
    · exact Or.inl same
    · exact Or.inr (forest.parent step child ▸ above)
  · rintro (rfl | above)
    · exact .refl
    · exact above.tail child

theorem child_of_leads (forest : Forest next) {left right : α}
    (childLeft : left ∈ next parent) (childRight : right ∈ next parent)
    (leads : Leads next left right) : left = right := by
  rcases (forest.leads_child_iff childRight).mp leads with same | up
  · exact same.symm
  · exact absurd up (forest.acyclic childLeft)

/-- Two children of one parent lead to nothing in common. -/
theorem child_eq (forest : Forest next) {left right : α}
    (childLeft : left ∈ next parent) (childRight : right ∈ next parent)
    (leadsLeft : Leads next left lower) (leadsRight : Leads next right lower) :
    left = right := by
  have unique : Relator.RightUnique
      (Function.swap fun upper lower : α => lower ∈ next upper) :=
    fun _ _ _ first second => forest.parent first second
  rcases Relation.ReflTransGen.total_of_right_unique unique
    (Relation.reflTransGen_swap.mpr leadsLeft)
    (Relation.reflTransGen_swap.mpr leadsRight) with up | down
  · exact (forest.child_of_leads childRight childLeft
      (Relation.reflTransGen_swap.mp up)).symm
  · exact forest.child_of_leads childLeft childRight
      (Relation.reflTransGen_swap.mp down)

/-- Neither of two items leads to the other. -/
def Apart (next : α → List α) (left right : α) : Prop :=
  ¬ Leads next left right ∧ ¬ Leads next right left

/-- A walk from items that are apart visits nothing twice. -/
theorem nodup_walk (forest : Forest next) (walk : Walk next stack visited)
    (apart : stack.Pairwise (Apart next)) : visited.Nodup := by
  induction walk with
  | done => exact List.nodup_nil
  | @visit current stack visited later ih =>
      obtain ⟨apartCurrent, apartStack⟩ := List.pairwise_cons.mp apart
      have siblings : (next current).Pairwise (Apart next) := by
        apply (forest.nodup current).pairwise_of_forall_ne
        intro left childLeft right childRight different
        exact ⟨fun leads => different
            (forest.child_of_leads childLeft childRight leads),
          fun leads => different
            (forest.child_of_leads childRight childLeft leads).symm⟩
      have across : ∀ child ∈ next current, ∀ other ∈ stack,
          Apart next child other := by
        intro child below other waiting
        obtain ⟨down, up⟩ := apartCurrent other waiting
        refine ⟨fun leads => down (.head below leads), fun leads => ?_⟩
        rcases (forest.leads_child_iff below).mp leads with same | above
        · exact down (.single (same ▸ below))
        · exact up above
      refine List.nodup_cons.mpr ⟨?_, ih
        (List.pairwise_append.mpr ⟨siblings, apartStack, across⟩)⟩
      intro again
      obtain ⟨upper, pushed, leads⟩ := later.mem_iff.mp again
      rcases List.mem_append.mp pushed with below | waiting
      · exact forest.acyclic below leads
      · exact (apartCurrent upper waiting).2 leads

/-- So does a walk from one item. -/
theorem nodup_of_walk (forest : Forest next) {item : α}
    (walk : Walk next [item] visited) : visited.Nodup :=
  forest.nodup_walk walk (List.pairwise_singleton _ _)

end Forest

end HfMount.Worklist
