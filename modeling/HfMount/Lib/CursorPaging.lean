import Mathlib.Data.List.Basic

/-!
# Reading a list page by page

The reader hands back the key of the last item it was given, and the next page
starts behind the first item with that key.  The pages are the list if and only
if the last item of every page but the final one is the first with its key.
-/

namespace HfMount.CursorPaging

variable {α : Type} (key : α → Nat)

/-- Where the page after a cookie starts; zero asks for the first page, and so
does a key that is not there. -/
def skip (items : List α) (cookie : Nat) : Nat :=
  if 0 < cookie then
    match items.findIdx? (key · == cookie) with
    | some place => place + 1
    | none => 0
  else 0

/-- A page, and whether it is the final one. -/
def page (items : List α) (size cookie : Nat) : List α × Bool :=
  let entries := (items.drop (skip key items cookie)).take size
  (entries, decide (items.length ≤ skip key items cookie + entries.length))

/-- All pages from a cookie on, if `fuel` pages are enough. -/
def readAll (items : List α) (size : Nat) : Nat → Nat → Option (List α)
  | 0, _ => none
  | fuel + 1, cookie =>
      let current := page key items size cookie
      if current.2 then some current.1
      else (readAll items size fuel
        (current.1.getLast?.elim cookie key)).map (current.1 ++ ·)

/-- The item at a place is the first with its key. -/
def FirstAt (items : List α) (place : Nat) : Prop :=
  ∃ item, items[place]? = some item ∧
    items.findIdx? (key · == key item) = some place

variable {key} {items : List α} {size : Nat}

theorem skip_zero : skip key items 0 = 0 := rfl

theorem skip_le_length (cookie : Nat) :
    skip key items cookie ≤ items.length := by
  unfold skip
  split
  · split <;> rename_i found
    · exact (List.findIdx?_eq_some_iff_getElem.mp found).1
    · exact Nat.zero_le _
  · exact Nat.zero_le _

theorem page_of_end {cookie : Nat}
    (short : items.length ≤ skip key items cookie + size) :
    page key items size cookie = (items.drop (skip key items cookie), true) := by
  unfold page
  rw [List.take_of_length_le (by rw [List.length_drop]; omega)]
  simp only [List.length_drop, Prod.mk.injEq, true_and, decide_eq_true_eq]
  omega

/-- A page before the final one: its last item, and the first place of the
key of that item, behind which the next page starts. -/
structure FullPage (key : α → Nat) (items : List α) (size cookie : Nat)
    (last : α) (place : Nat) : Prop where
  eq : page key items size cookie =
    ((items.drop (skip key items cookie)).take size, false)
  length : ((items.drop (skip key items cookie)).take size).length = size
  isLast : ((items.drop (skip key items cookie)).take size).getLast? = some last
  here : items[skip key items cookie + size - 1]? = some last
  found : items.findIdx? (key · == key last) = some place
  le : place ≤ skip key items cookie + size - 1
  next : skip key items (key last) = place + 1

theorem page_of_more {cookie : Nat} (positive : 0 < size)
    (keys : ∀ item ∈ items, 0 < key item)
    (long : skip key items cookie + size < items.length) :
    ∃ last place, FullPage key items size cookie last place := by
  have length :
      ((items.drop (skip key items cookie)).take size).length = size := by
    rw [List.length_take, List.length_drop]
    omega
  have inside : skip key items cookie + size - 1 < items.length := by omega
  have here := List.getElem?_eq_getElem inside
  have listed := List.getElem_mem inside
  generalize items[skip key items cookie + size - 1] = last at here listed
  have isLast :
      ((items.drop (skip key items cookie)).take size).getLast? = some last := by
    rw [List.getLast?_eq_getElem?, length, List.getElem?_take,
      if_pos (by omega), List.getElem?_drop, ← here]
    congr 1
    omega
  cases found : items.findIdx? (key · == key last) with
  | none =>
      have missed := List.findIdx?_eq_none_iff.mp found _ listed
      simp at missed
  | some place =>
      refine ⟨last, place, ?_, length, isLast, here, found, ?_, ?_⟩
      · unfold page
        dsimp only
        rw [length]
        simp only [Prod.mk.injEq, true_and, decide_eq_false_iff_not]
        omega
      · by_contra later
        obtain ⟨_, _, before⟩ := List.findIdx?_eq_some_iff_getElem.mp found
        have none := before _ (Nat.not_le.mp later)
        rw [(List.getElem?_eq_some_iff.mp here).2] at none
        simp at none
      · unfold skip
        rw [if_pos (keys _ listed), found]

theorem FullPage.readAll {fuel cookie place : Nat} {last : α}
    (full : FullPage key items size cookie last place) :
    readAll key items size (fuel + 1) cookie =
      (readAll key items size fuel (key last)).map
        ((items.drop (skip key items cookie)).take size ++ ·) := by
  rw [CursorPaging.readAll, full.eq]
  simp [full.isLast]

/-! ## Every page boundary matters -/

/-- The last item of every page is the first with its key. -/
def Boundaries (key : α → Nat) (items : List α) (size from' : Nat) : Prop :=
  ∀ count, 0 < count → from' + count * size < items.length →
    FirstAt key items (from' + count * size - 1)

/-- What is read is at least what is left, and no more than that only if no
page boundary goes back. -/
theorem left_le_length_readAll (positive : 0 < size)
    (keys : ∀ item ∈ items, 0 < key item) (fuel : Nat) :
    ∀ {cookie : Nat} {read : List α},
      readAll key items size fuel cookie = some read →
      items.length ≤ skip key items cookie + read.length ∧
        (read.length ≤ items.length - skip key items cookie →
          Boundaries key items size (skip key items cookie)) := by
  induction fuel with
  | zero =>
      intro cookie read stopped
      cases stopped
  | succ fuel ih =>
      intro cookie read done
      by_cases long : skip key items cookie + size < items.length
      · obtain ⟨last, place, full⟩ := page_of_more positive keys long
        rw [full.readAll] at done
        obtain ⟨rest, tail, rfl⟩ := Option.map_eq_some_iff.mp done
        obtain ⟨enough, boundaries⟩ := ih tail
        have next := full.next
        have le := full.le
        rw [List.length_append, full.length]
        rw [next] at enough boundaries
        refine ⟨by omega, ?_⟩
        intro exact count some' inside
        have here : place = skip key items cookie + size - 1 := by omega
        cases count with
        | zero => omega
        | succ count =>
            cases count with
            | zero =>
                rw [Nat.zero_add, Nat.one_mul, ← here]
                exact ⟨last, here ▸ full.here, full.found⟩
            | succ count =>
                have later := boundaries (by omega) (count + 1)
                  (Nat.succ_pos count)
                have same : place + 1 + (count + 1) * size =
                    skip key items cookie + (count + 1 + 1) * size := by
                  rw [Nat.add_mul (count + 1) 1, Nat.one_mul]
                  omega
                rw [same] at later
                exact later inside
      · rw [CursorPaging.readAll, page_of_end (Nat.not_lt.mp long)] at done
        simp only [if_true, Option.some.injEq] at done
        rw [← done, List.length_drop]
        refine ⟨by omega, ?_⟩
        intro _ count some' inside
        have least : size ≤ count * size := Nat.le_mul_of_pos_left _ some'
        omega

/-- With the boundaries in order, what is left is read. -/
theorem readAll_of_boundaries (positive : 0 < size)
    (keys : ∀ item ∈ items, 0 < key item) (fuel : Nat) :
    ∀ {cookie : Nat},
      items.length < skip key items cookie + fuel →
      Boundaries key items size (skip key items cookie) →
      readAll key items size fuel cookie =
        some (items.drop (skip key items cookie)) := by
  induction fuel with
  | zero =>
      intro cookie enough _
      exact absurd (skip_le_length cookie) (Nat.not_le.mpr enough)
  | succ fuel ih =>
      intro cookie enough boundaries
      by_cases long : skip key items cookie + size < items.length
      · obtain ⟨last, place, full⟩ := page_of_more positive keys long
        obtain ⟨item, here, first⟩ := boundaries 1 Nat.one_pos (by omega)
        rw [Nat.one_mul] at here first
        rw [full.here] at here
        obtain rfl := Option.some.inj here
        rw [full.found] at first
        have place := Option.some.inj first
        have next := full.next
        have later : Boundaries key items size (skip key items (key last)) := by
          intro count some' inside
          have same : skip key items (key last) + count * size =
              skip key items cookie + (count + 1) * size := by
            rw [Nat.add_mul, Nat.one_mul]
            omega
          rw [same] at inside ⊢
          exact boundaries (count + 1) (Nat.succ_pos count) inside
        rw [full.readAll, ih (by omega) later, Option.map_some, next, place,
          Nat.sub_add_cancel (by omega), ← List.drop_drop, List.take_append_drop]
      · rw [CursorPaging.readAll, page_of_end (Nat.not_lt.mp long)]
        rfl

/-- The pages are a permutation of the list if and only if they are the list,
and that is so for these page boundaries. -/
theorem readAll_iff (positive : 0 < size)
    (keys : ∀ item ∈ items, 0 < key item) :
    (∃ fuel read, readAll key items size fuel 0 = some read ∧
        read.Perm items) ↔ Boundaries key items size 0 := by
  constructor
  · rintro ⟨fuel, read, done, same⟩
    have counted := left_le_length_readAll positive keys fuel done
    rw [skip_zero] at counted
    exact counted.2 (by rw [same.length_eq]; omega)
  · intro boundaries
    have enough : items.length < skip key items 0 + (items.length + 1) := by
      omega
    have done := readAll_of_boundaries positive keys (items.length + 1) enough
      boundaries
    exact ⟨items.length + 1, items, done, .refl items⟩

/-! ## Which items are the first with their keys -/

theorem FirstAt.head (item : α) : FirstAt key (item :: items) 0 :=
  ⟨item, rfl, by simp [List.findIdx?_cons]⟩

theorem firstAt_cons {head : α} {place : Nat} :
    FirstAt key (head :: items) (place + 1) ↔
      FirstAt key items place ∧
        ∀ item, items[place]? = some item → key head ≠ key item := by
  unfold FirstAt
  simp only [List.getElem?_cons_succ, List.findIdx?_cons]
  constructor
  · rintro ⟨item, here, found⟩
    split at found <;> rename_i same
    · cases found
    · obtain ⟨other, again, shifted⟩ := Option.map_eq_some_iff.mp found
      obtain rfl : other = place := Nat.succ.inj shifted
      refine ⟨⟨item, here, again⟩, ?_⟩
      intro again here'
      rw [here] at here'
      obtain rfl := Option.some.inj here'
      simpa using same
  · rintro ⟨⟨item, here, found⟩, apart⟩
    refine ⟨item, here, ?_⟩
    rw [if_neg (by simpa using apart item here), found]
    rfl

theorem firstAt_of_nodup (nodup : (items.map key).Nodup) :
    ∀ {place : Nat}, place < items.length → FirstAt key items place := by
  induction items with
  | nil =>
      intro place inside
      simp at inside
  | cons head items ih =>
      intro place inside
      obtain ⟨notLater, tail⟩ := List.nodup_cons.mp nodup
      cases place with
      | zero => exact .head head
      | succ place =>
          apply firstAt_cons.mpr
          refine ⟨ih tail (Nat.lt_of_succ_lt_succ inside), ?_⟩
          intro item here same
          rw [same] at notLater
          exact notLater (List.mem_map.mpr
            ⟨item, List.mem_of_getElem? here, rfl⟩)

end HfMount.CursorPaging
