import Mathlib.Data.List.Sort
import Mathlib.Order.MinMax

/-!
# The smallest items of a scan

A priority queue that gives up its greatest item whenever it holds more than
`bound` of them has kept the `bound` smallest items at the end of a scan, in
whatever order the scan went.  The queue is known by its items; where they lie
in it is not.
-/

namespace HfMount.Selection

variable {α : Type} [LinearOrder α]

/-- The greatest item leaves the queue. -/
def popMax (heap : List α) : List α :=
  match heap.max? with
  | none => heap
  | some greatest => heap.erase greatest

/-- An item is pushed, and the greatest one goes if there are too many. -/
def pushBounded (bound : Nat) (heap : List α) (item : α) : List α :=
  if bound < (item :: heap).length then popMax (item :: heap)
  else item :: heap

def keepSmallest (bound : Nat) (items : List α) : List α :=
  items.foldl (pushBounded bound) []

/-- The kept items are as many as there may be, and none is greater than one
that was given up. -/
structure Keeps (bound : Nat) (kept given items : List α) : Prop where
  split : (kept ++ given).Perm items
  length : kept.length = min bound items.length
  le : ∀ item ∈ kept, ∀ other ∈ given, item ≤ other

theorem popMax_cons (item : α) (heap : List α) :
    ∃ greatest ∈ item :: heap,
      popMax (item :: heap) = (item :: heap).erase greatest ∧
        ∀ other ∈ item :: heap, other ≤ greatest := by
  cases found : (item :: heap).max? with
  | none => simp at found
  | some greatest =>
      obtain ⟨listed, above⟩ := List.max?_eq_some_iff.mp found
      refine ⟨greatest, listed, ?_, above⟩
      unfold popMax
      rw [found]

theorem Keeps.nil (bound : Nat) : Keeps bound ([] : List α) [] [] := by
  constructor <;> simp

/-- One step of the scan: the item is kept, or the greatest one is given up. -/
theorem Keeps.push {bound : Nat} {kept given items : List α}
    (keeps : Keeps bound kept given items) (item : α) :
    ∃ left, Keeps bound (pushBounded bound kept item) left
      (items ++ [item]) := by
  have more : (item :: (kept ++ given)).Perm (items ++ [item]) :=
    (keeps.split.cons item).trans (List.perm_append_singleton item items).symm
  have length := keeps.length
  unfold pushBounded
  split <;> rename_i full
  · obtain ⟨greatest, listed, popped, above⟩ := popMax_cons item kept
    have apart := List.perm_cons_erase listed
    rw [popped]
    refine ⟨greatest :: given, ?_, ?_, ?_⟩
    · refine List.Perm.trans ?_ more
      refine List.perm_middle.trans ?_
      exact apart.symm.append_right given
    · simp only [List.length_erase_of_mem listed, List.length_cons,
        List.length_append, List.length_nil] at full ⊢
      omega
    · intro small stays other gone
      have pushed := List.mem_of_mem_erase stays
      rcases List.mem_cons.mp gone with here | earlier
      · rw [here]
        exact above small pushed
      · -- What was given up before is above all that was kept then.
        rcases List.mem_cons.mp pushed with here | before
        · obtain ⟨high, kept', below⟩ : ∃ high ∈ kept, small ≤ high := by
            by_cases same : greatest = item
            · refine ⟨small, ?_, le_refl small⟩
              simpa [same] using stays
            · exact ⟨greatest, (List.mem_cons.mp listed).resolve_left same,
                above small pushed⟩
          exact below.trans (keeps.le high kept' other earlier)
        · exact keeps.le small before other earlier
  · refine ⟨given, more, ?_, ?_⟩
    · simp only [List.length_cons, List.length_append, List.length_nil]
        at full ⊢
      omega
    · -- There was room, so nothing has been given up.
      have all := keeps.split.length_eq
      have none : given = [] := by
        apply List.eq_nil_of_length_eq_zero
        simp only [List.length_append, List.length_cons] at all full
        omega
      intro small _ other gone
      rw [none] at gone
      cases gone

theorem Keeps.of_perm {bound : Nat} {kept given items others : List α}
    (keeps : Keeps bound kept given items) (same : items.Perm others) :
    Keeps bound kept given others := by
  constructor
  · exact keeps.split.trans same
  · rw [keeps.length, same.length_eq]
  · exact keeps.le

theorem Keeps.scan {bound : Nat} (items : List α) :
    ∀ {kept given before : List α}, Keeps bound kept given before →
      ∃ left, Keeps bound (items.foldl (pushBounded bound) kept) left
        (before ++ items) := by
  induction items with
  | nil =>
      intro kept given before keeps
      exact ⟨given, by simpa using keeps⟩
  | cons item items ih =>
      intro kept given before keeps
      obtain ⟨left, pushed⟩ := keeps.push item
      simpa using ih pushed

theorem keepSmallest_keeps (bound : Nat) (items : List α) :
    ∃ given, Keeps bound (keepSmallest bound items) given items :=
  (Keeps.nil bound).scan items

/-- Sorted, the kept items are the first of all items sorted. -/
theorem Keeps.mergeSort {bound : Nat} {kept given items : List α}
    (keeps : Keeps bound kept given items) :
    kept.mergeSort (· ≤ ·) = (items.mergeSort (· ≤ ·)).take bound := by
  have sorted : (kept.mergeSort (· ≤ ·) ++ given.mergeSort (· ≤ ·)).Pairwise
      (· ≤ ·) := by
    rw [List.pairwise_append]
    refine ⟨List.pairwise_mergeSort' _ _, List.pairwise_mergeSort' _ _, ?_⟩
    intro item stays other gone
    exact keeps.le item (List.mem_mergeSort.mp stays) other
      (List.mem_mergeSort.mp gone)
  have same : kept.mergeSort (· ≤ ·) ++ given.mergeSort (· ≤ ·) =
      items.mergeSort (· ≤ ·) := by
    refine List.Perm.eq_of_pairwise' sorted (List.pairwise_mergeSort' _ _) ?_
    refine List.Perm.trans ?_ (List.mergeSort_perm items _).symm
    exact ((List.mergeSort_perm kept _).append
      (List.mergeSort_perm given _)).trans keeps.split
  rw [← same]
  have length := keeps.length
  have all := keeps.split.length_eq
  rw [List.length_append] at all
  by_cases full : bound ≤ items.length
  · apply (List.take_left' ?_).symm
    rw [List.length_mergeSort, length, Nat.min_eq_left full]
  · have none : given = [] := by
      apply List.eq_nil_of_length_eq_zero
      omega
    rw [none, List.mergeSort_nil, List.append_nil, List.take_of_length_le]
    rw [List.length_mergeSort]
    omega

end HfMount.Selection
