import HfMount.Inode.BatchEviction
import HfMount.Lib.Selection
import HfMount.Vfs.References
import Mathlib.Data.Prod.Lex

/-!
# The candidates of a sweep

`lruCandidates` scans the table once with a bounded heap of recencies, and
looks up the names of what the heap has kept.  The scan goes in the order of a
hash map, and the heap gives its items in an order of its own.  Neither shows
in the result.
-/

namespace HfMount.Inode

open SlashPath Selection

/-- What the heap holds for a file: recency first, then the inode number. -/
def InodeEntry.recency (entry : InodeEntry) : Nat ×ₗ Ino :=
  toLex (entry.eviction.lastTouched, entry.inode)

/-- What the caller is handed for a file. -/
def InodeEntry.candidate (entry : InodeEntry) : Ino × Ino × Name :=
  (entry.inode, entry.parent, entry.name)

namespace InodeTable

/-- The heap after the scan. -/
def lruHeap (max : Nat) (entries : List InodeEntry) : List (Nat ×ₗ Ino) :=
  entries.foldl
    (fun heap entry =>
      if entry.isLruCandidate then pushBounded max heap entry.recency
      else heap)
    []

/-- `sort_by_key` on the recency alone. -/
def oldestFirst (picks : List (Nat ×ₗ Ino)) : List (Nat ×ₗ Ino) :=
  picks.mergeSort fun left right => (ofLex left).1 ≤ (ofLex right).1

/-- `lruCandidates` with the two orders that the source leaves open: that of
the scan, and that of the vector the heap becomes. -/
def lruCandidatesBy (table : InodeTable) (max : Nat)
    (entries : List InodeEntry)
    (intoVec : List (Nat ×ₗ Ino) → List (Nat ×ₗ Ino)) :
    List (Ino × Ino × Name) :=
  if max = 0 then []
  else (oldestFirst (intoVec (lruHeap max entries))).filterMap fun pick =>
    (table.get (ofLex pick).2).map fun entry =>
      ((ofLex pick).2, entry.parent, entry.name)

/-- Every entry is under its own number. -/
def Keyed (table : InodeTable) : Prop :=
  ∀ {ino entry}, table.get ino = some entry → entry.inode = ino

def eligible (table : InodeTable) : List InodeEntry :=
  table.values.filter (·.isLruCandidate)

/-- No two files that may be picked were touched at the same count.  The root
shares its recency with the first file of a mount, but it is never picked. -/
def DistinctTouches (table : InodeTable) : Prop :=
  (table.eligible.map (·.eviction.lastTouched)).Nodup

theorem WellFormed.keyed {table : InodeTable} (wf : table.WellFormed) :
    table.Keyed :=
  fun found => (wf.key found).1

theorem lruHeap_eq_keepSmallest (max : Nat) (entries : List InodeEntry) :
    lruHeap max entries = keepSmallest max
      ((entries.filter (·.isLruCandidate)).map (·.recency)) := by
  unfold lruHeap keepSmallest
  rw [List.foldl_map, List.foldl_filter]

/-- The naive sort that the heap replaces. -/
def lruSorted (table : InodeTable) : List InodeEntry :=
  table.eligible.mergeSort fun left right =>
    left.eviction.lastTouched < right.eviction.lastTouched ||
      left.eviction.lastTouched == right.eviction.lastTouched &&
        decide (left.inode ≤ right.inode)

theorem map_recency_lruSorted (table : InodeTable) :
    table.lruSorted.map (·.recency) =
      (table.eligible.map (·.recency)).mergeSort (· ≤ ·) := by
  apply List.map_mergeSort
  intro left _ right _
  rw [Bool.eq_iff_iff]
  simp [InodeEntry.recency, Prod.Lex.toLex_le_toLex]

theorem pairwise_oldestFirst (picks : List (Nat ×ₗ Ino)) :
    (oldestFirst picks).Pairwise
      fun left right => (ofLex left).1 ≤ (ofLex right).1 := by
  unfold oldestFirst
  refine (List.pairwise_mergeSort ?_ ?_ picks).imp ?_
  · intro first second third below above
    simp only [decide_eq_true_eq] at below above ⊢
    exact below.trans above
  · intro left right
    simp only [Bool.or_eq_true, decide_eq_true_eq]
    exact Nat.le_total _ _
  · intro left right
    simp

/-- Items with distinct recencies are in one order only. -/
theorem oldestFirst_eq {picks heap : List (Nat ×ₗ Ino)}
    (distinct : (heap.map fun pick => (ofLex pick).1).Nodup)
    (same : picks.Perm heap) :
    oldestFirst picks = heap.mergeSort (· ≤ ·) := by
  have inOrder : (oldestFirst picks).Perm heap :=
    (List.mergeSort_perm picks _).trans same
  have apart := (inOrder.map fun pick => (ofLex pick).1).nodup_iff.mpr distinct
  refine List.Perm.eq_of_pairwise' ?_ (List.pairwise_mergeSort' _ _)
    (inOrder.trans (List.mergeSort_perm heap _).symm)
  rw [List.Nodup, List.pairwise_map] at apart
  refine ((pairwise_oldestFirst picks).and apart).imp ?_
  intro left right both
  rw [Prod.Lex.le_iff]
  exact Or.inl (lt_of_le_of_ne both.1 both.2)

section

variable {table : InodeTable} {entries : List InodeEntry} {max : Nat}

theorem filterMap_recency (keyed : table.Keyed) {chosen : List InodeEntry}
    (listed : ∀ entry ∈ chosen, entry ∈ table.values) :
    ((chosen.map (·.recency)).filterMap fun pick =>
      (table.get (ofLex pick).2).map fun entry =>
        ((ofLex pick).2, entry.parent, entry.name)) =
      chosen.map (·.candidate) := by
  rw [List.filterMap_map, ← List.filterMap_eq_map]
  apply List.filterMap_congr
  intro entry chosenEntry
  obtain ⟨ino, found⟩ := mem_values.mp (listed entry chosenEntry)
  rw [← keyed found] at found
  simp [InodeEntry.recency, InodeEntry.candidate, found]

theorem mem_lruSorted {entry : InodeEntry} :
    entry ∈ table.lruSorted ↔ entry ∈ table.eligible :=
  List.mem_mergeSort

/-- The heap and the two orders make no difference to the naive sort. -/
theorem lruCandidatesBy_eq (keyed : table.Keyed)
    (distinct : table.DistinctTouches) (order : entries.Perm table.values)
    {intoVec : List (Nat ×ₗ Ino) → List (Nat ×ₗ Ino)}
    (items : ∀ heap, (intoVec heap).Perm heap) :
    table.lruCandidatesBy max entries intoVec =
      (table.lruSorted.take max).map (·.candidate) := by
  unfold lruCandidatesBy
  split <;> rename_i bound
  · rw [bound, List.take_zero, List.map_nil]
  · obtain ⟨given, scanned⟩ := keepSmallest_keeps max
      ((entries.filter (·.isLruCandidate)).map (·.recency))
    rw [← lruHeap_eq_keepSmallest] at scanned
    have keeps : Keeps max (lruHeap max entries) given
        (table.eligible.map (·.recency)) :=
      scanned.of_perm ((order.filter _).map _)
    have touches :
        ((lruHeap max entries).map fun pick => (ofLex pick).1).Nodup := by
      have all : ((lruHeap max entries ++ given).map
          fun pick => (ofLex pick).1).Nodup := by
        rw [(keeps.split.map fun pick => (ofLex pick).1).nodup_iff,
          List.map_map]
        exact distinct
      rw [List.map_append] at all
      exact all.of_append_left
    rw [oldestFirst_eq touches (items _), keeps.mergeSort,
      ← map_recency_lruSorted, ← List.map_take]
    apply filterMap_recency keyed
    intro entry chosen
    exact (List.mem_filter.mp (mem_lruSorted.mp (List.mem_of_mem_take chosen))).1

/-- The naive selection, oldest first and one entry for each recency. -/
theorem lruSorted_pairwise (distinct : table.DistinctTouches) :
    table.lruSorted.Pairwise fun left right =>
      left.eviction.lastTouched < right.eviction.lastTouched := by
  have sorted : (table.lruSorted.map (·.recency)).Pairwise (· ≤ ·) := by
    rw [map_recency_lruSorted]
    exact List.pairwise_mergeSort' _ _
  have apart : (table.lruSorted.map (·.eviction.lastTouched)).Nodup :=
    ((List.mergeSort_perm table.eligible _).map _).nodup_iff.mpr distinct
  rw [List.pairwise_map] at sorted
  rw [List.Nodup, List.pairwise_map] at apart
  refine (sorted.and apart).imp ?_
  intro left right both
  rcases Prod.Lex.le_iff.mp both.1 with older | same
  · exact older
  · exact absurd same.1 both.2

theorem lru_candidates_exact (keyed : table.Keyed)
    (distinct : table.DistinctTouches) (order : entries.Perm table.values)
    {intoVec : List (Nat ×ₗ Ino) → List (Nat ×ₗ Ino)}
    (items : ∀ heap, (intoVec heap).Perm heap) :
    ∃ chosen : List InodeEntry,
      table.lruCandidatesBy max entries intoVec = chosen.map (·.candidate) ∧
        chosen.length = min max table.eligible.length ∧
        (chosen.Pairwise fun left right =>
          left.eviction.lastTouched < right.eviction.lastTouched) ∧
        (∀ entry ∈ chosen, entry ∈ table.eligible) ∧
        ∀ entry ∈ table.eligible, entry ∉ chosen → ∀ other ∈ chosen,
          other.eviction.lastTouched < entry.eviction.lastTouched := by
  have sorted := lruSorted_pairwise distinct
  refine ⟨table.lruSorted.take max,
    lruCandidatesBy_eq keyed distinct order items, ?_, ?_, ?_, ?_⟩
  · rw [List.length_take]
    congr 1
    exact (List.mergeSort_perm table.eligible _).length_eq
  · exact sorted.sublist (List.take_sublist _ _)
  · intro entry chosen
    exact mem_lruSorted.mp (List.mem_of_mem_take chosen)
  · intro entry candidate passed other chosen
    have listed := mem_lruSorted.mpr candidate
    rw [← List.take_append_drop max table.lruSorted] at listed sorted
    have later := (List.mem_append.mp listed).resolve_left passed
    exact (List.pairwise_append.mp sorted).2.2 other chosen entry later

end

theorem lru_candidates_exact_twoCandidates :
    ∃ chosen : List InodeEntry,
      twoCandidates.lruCandidatesBy 1 twoCandidates.values.reverse
          List.reverse = chosen.map (·.candidate) ∧
        chosen.length = min 1 twoCandidates.eligible.length ∧
        (chosen.Pairwise fun left right =>
          left.eviction.lastTouched < right.eviction.lastTouched) ∧
        (∀ entry ∈ chosen, entry ∈ twoCandidates.eligible) ∧
        ∀ entry ∈ twoCandidates.eligible, entry ∉ chosen →
          ∀ other ∈ chosen,
            other.eviction.lastTouched < entry.eviction.lastTouched :=
  lru_candidates_exact wellFormed_twoCandidates.keyed
    (by unfold DistinctTouches; decide) (List.reverse_perm _)
    fun _ => List.reverse_perm _

end InodeTable

end HfMount.Inode
