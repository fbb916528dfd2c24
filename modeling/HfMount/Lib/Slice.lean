import Mathlib.Data.List.Basic

/-!
# Slices of a list

`slice content start length` is the window of at most `length` elements that
begins at `start`.  A buffer that caches a window of some content is described
by one equation `buffer = slice content start buffer.length`; the lemmas below
say how appending, dropping and cutting act on such equations.
-/

namespace HfMount.Slice

variable {α : Type}

/-- The elements of `content` at positions `start, …, start + length - 1`, as
far as they exist. -/
def slice (content : List α) (start length : Nat) : List α :=
  (content.drop start).take length

/-- `window` is the part of `content` that begins at `start`. -/
def IsWindow (content : List α) (start : Nat) (window : List α) : Prop :=
  window = slice content start window.length

instance [DecidableEq α] (content : List α) (start : Nat) (window : List α) :
    Decidable (IsWindow content start window) :=
  inferInstanceAs (Decidable (window = slice content start window.length))

theorem isWindow_iff_begins {content : List α} {start : Nat}
    {window : List α} :
    IsWindow content start window ↔ window <+: content.drop start :=
  List.prefix_iff_eq_take.symm

@[simp] theorem isWindow_nil (content : List α) (start : Nat) :
    IsWindow content start [] := by
  simp [IsWindow, slice]

theorem IsWindow.take {content : List α} {start : Nat} {window : List α}
    (whole : IsWindow content start window) (count : Nat) :
    IsWindow content start (window.take count) := by
  rw [isWindow_iff_begins] at whole ⊢
  exact (List.take_prefix count window).trans whole

theorem IsWindow.drop {content : List α} {start : Nat} {window : List α}
    (whole : IsWindow content start window) (count : Nat) :
    IsWindow content (start + count) (window.drop count) := by
  rw [isWindow_iff_begins] at whole ⊢
  obtain ⟨tail, equality⟩ := whole
  rw [← List.drop_drop, ← equality, List.drop_append]
  exact List.prefix_append _ _

/-- Two windows that meet form one window. -/
theorem IsWindow.append {content : List α} {start : Nat}
    {first second : List α}
    (left : IsWindow content start first)
    (right : IsWindow content (start + first.length) second) :
    IsWindow content start (first ++ second) := by
  rw [isWindow_iff_begins] at left right ⊢
  obtain ⟨tail, equality⟩ := left
  have rest : content.drop (start + first.length) = tail := by
    rw [← List.drop_drop, ← equality, List.drop_left]
  rw [rest] at right
  rw [← equality]
  exact (List.prefix_append_right_inj first).mpr right

end HfMount.Slice
