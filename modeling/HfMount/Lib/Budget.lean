import Mathlib.Algebra.BigOperators.Group.Finset.Basic
import Mathlib.Algebra.GroupWithZero.Nat
import Mathlib.Algebra.Order.BigOperators.Group.Finset
import Mathlib.Data.List.AList

/-!
# A running total of weighted items

The items of a finite map have weights, and a counter is to hold their sum.
The counter only learns of the change of one item at a time: the weight that
goes and the weight that comes.  It cannot go below zero nor above a limit, so
an announced change that is not the true one can stay in the counter forever.
-/

namespace HfMount.Budget

variable {α β : Type} [DecidableEq α]

/-- What the item under a key counts for. -/
def weightAt (weight : α → β → Nat) (items : AList fun _ : α => β)
    (key : α) : Nat :=
  (items.lookup key).elim 0 (weight key)

def total (weight : α → β → Nat) (items : AList fun _ : α => β) : Nat :=
  (items.entries.map fun item => weight item.1 item.2).sum

/-- The counter after an item has gone from one weight to another. -/
def resize (limit used old new : Nat) : Nat :=
  min (used - old + new) limit

variable {weight changed : α → β → Nat} {items next : AList fun _ : α => β}

theorem weightAt_of_lookup {key : α} {item : β}
    (found : items.lookup key = some item) :
    weightAt weight items key = weight key item := by
  simp [weightAt, found]

theorem weightAt_of_missing {key : α} (missing : items.lookup key = none) :
    weightAt weight items key = 0 := by
  simp [weightAt, missing]

theorem weightAt_of_not_mem_keys {key : α} (missing : key ∉ items.keys) :
    weightAt weight items key = 0 := by
  apply weightAt_of_missing
  rw [AList.lookup_eq_none]
  exact missing

theorem total_eq_sum_keys :
    total weight items =
      ∑ key ∈ items.keys.toFinset, weightAt weight items key := by
  rw [List.sum_toFinset _ items.keys_nodup]
  unfold total AList.keys List.keys
  rw [List.map_map]
  congr 1
  apply List.map_congr_left
  intro item listed
  have found : items.lookup item.1 = some item.2 :=
    List.mem_dlookup items.nodupKeys listed
  exact (weightAt_of_lookup found).symm

/-- The sum may run over any keys that cover those of the map. -/
theorem total_eq_sum {keys : Finset α}
    (covers : items.keys.toFinset ⊆ keys) :
    total weight items = ∑ key ∈ keys, weightAt weight items key := by
  rw [total_eq_sum_keys]
  apply Finset.sum_subset covers
  intro key _ missing
  apply weightAt_of_not_mem_keys
  simpa using missing

theorem weightAt_le_total (key : α) :
    weightAt weight items key ≤ total weight items := by
  have covers : items.keys.toFinset ⊆ insert key items.keys.toFinset :=
    Finset.subset_insert _ _
  rw [total_eq_sum covers]
  exact Finset.single_le_sum (fun _ _ => Nat.zero_le _)
    (Finset.mem_insert_self _ _)

theorem total_congr
    (same : ∀ key, weightAt changed next key = weightAt weight items key) :
    total changed next = total weight items := by
  have left : next.keys.toFinset ⊆
      next.keys.toFinset ∪ items.keys.toFinset := Finset.subset_union_left
  have right : items.keys.toFinset ⊆
      next.keys.toFinset ∪ items.keys.toFinset := Finset.subset_union_right
  rw [total_eq_sum left, total_eq_sum right]
  exact Finset.sum_congr rfl fun key _ => same key

theorem total_mono
    (below : ∀ key, weightAt changed next key ≤ weightAt weight items key) :
    total changed next ≤ total weight items := by
  have left : next.keys.toFinset ⊆
      next.keys.toFinset ∪ items.keys.toFinset := Finset.subset_union_left
  have right : items.keys.toFinset ⊆
      next.keys.toFinset ∪ items.keys.toFinset := Finset.subset_union_right
  rw [total_eq_sum left, total_eq_sum right]
  exact Finset.sum_le_sum fun key _ => below key

/-- When only one item changes, the sum changes by what that item does. -/
theorem total_change {key : α}
    (others : ∀ other ≠ key,
      weightAt changed next other = weightAt weight items other) :
    total changed next + weightAt weight items key =
      total weight items + weightAt changed next key := by
  let keys := insert key (next.keys.toFinset ∪ items.keys.toFinset)
  have present : key ∈ keys := Finset.mem_insert_self _ _
  have left : next.keys.toFinset ⊆ keys :=
    Finset.subset_union_left.trans (Finset.subset_insert _ _)
  have right : items.keys.toFinset ⊆ keys :=
    Finset.subset_union_right.trans (Finset.subset_insert _ _)
  have rest : ∑ other ∈ keys.erase key, weightAt changed next other =
      ∑ other ∈ keys.erase key, weightAt weight items other := by
    apply Finset.sum_congr rfl
    intro other member
    exact others other (Finset.ne_of_mem_erase member)
  rw [total_eq_sum left, total_eq_sum right,
    ← Finset.add_sum_erase _ _ present, ← Finset.add_sum_erase _ _ present,
    rest]
  omega

/-- An exact counter stays exact under a change that is announced as it is. -/
theorem resize_eq_total {limit used : Nat} {key : α}
    (exact_before : used = total weight items)
    (others : ∀ other ≠ key,
      weightAt changed next other = weightAt weight items other)
    (fits : total changed next ≤ limit) :
    resize limit used (weightAt weight items key)
        (weightAt changed next key) = total changed next := by
  have change := total_change others
  have within : weightAt weight items key ≤ total weight items :=
    weightAt_le_total key
  unfold resize
  omega

end HfMount.Budget
