import Mathlib.Data.List.DropRight
import Mathlib.Data.List.Infix

/-!
# Searching in texts

The operations of a string library that look for characters: trimming, the
first place of a character, slices, and cutting a text at a character.
-/

namespace HfMount.Text

/-- `char::is_whitespace`: the property White_Space. -/
def isWhitespace (c : Char) : Bool :=
  let code := c.toNat
  (9 ≤ code && code ≤ 13) || code = 32 || code = 133 || code = 160 ||
    code = 5760 || (8192 ≤ code && code ≤ 8202) || code = 8232 ||
    code = 8233 || code = 8239 || code = 8287 || code = 12288

/-- `str::trim`. -/
def trim (text : List Char) : List Char :=
  (text.dropWhile isWhitespace).rdropWhile isWhitespace

/-- `&text[start..stop]`; `none` is a panic. -/
def slice (text : List Char) (start stop : Nat) : Option (List Char) :=
  if start ≤ stop && stop ≤ text.length then
    some ((text.take stop).drop start)
  else none

/-- `str::trim_matches`, with one character. -/
def trimMatches (mark : Char) (text : List Char) : List Char :=
  (text.dropWhile (· == mark)).rdropWhile (· == mark)

/-! ## Finding and cutting -/

theorem findIdx?_append_cons {c : Char} {before : List Char}
    (first : c ∉ before) (after : List Char) :
    (before ++ c :: after).findIdx? (· == c) = some before.length := by
  induction before with
  | nil => simp [List.findIdx?_cons]
  | cons other before ih =>
      rw [List.mem_cons, not_or] at first
      have different : (other == c) = false := by
        simpa using Ne.symm first.1
      rw [List.cons_append, List.findIdx?_cons, different, ih first.2]
      rfl

theorem splitOn_eq_cons (mark : Char) (text : List Char) :
    text.splitOn mark =
      text.takeWhile (· ≠ mark) :: (text.splitOn mark).tail := by
  by_cases listed : mark ∈ text
  · obtain ⟨before, after, rfl, first⟩ := List.eq_append_cons_of_mem listed
    have apart : ∀ c ∈ before, decide (c ≠ mark) = true := by
      intro c member
      simp only [ne_eq, decide_eq_true_eq]
      rintro rfl
      exact first member
    have single : before.splitOn mark = [before] :=
      List.splitOn_eq_singleton first
    rw [List.splitOn_append_cons_self, single,
      List.takeWhile_append_of_pos apart, List.takeWhile_cons]
    simp
  · have whole : text.takeWhile (· ≠ mark) = text := by
      rw [List.takeWhile_eq_self_iff]
      intro c member
      simp only [ne_eq, decide_eq_true_eq]
      rintro rfl
      exact listed member
    rw [List.splitOn_eq_singleton listed, whole]
    rfl

theorem splitOn_append_of_not_mem {mark : Char} {front : List Char}
    (apart : mark ∉ front) (text : List Char) :
    (front ++ text).splitOn mark =
      (front ++ text.takeWhile (· ≠ mark)) :: (text.splitOn mark).tail := by
  induction front with
  | nil => exact splitOn_eq_cons mark text
  | cons c front ih =>
      rw [List.mem_cons, not_or] at apart
      rw [List.cons_append, List.splitOn_cons_eq_if_modifyHead, ih apart.2]
      simp [Ne.symm apart.1]

/-! ## Blanks -/

def Blank (text : List Char) : Prop := ∀ c ∈ text, isWhitespace c = true

theorem blank_nil : Blank [] := by simp [Blank]

theorem Blank.not_mem {text : List Char} (blank : Blank text) {c : Char}
    (visible : isWhitespace c = false) : c ∉ text := by
  intro member
  rw [blank c member] at visible
  cases visible

theorem trim_eq (text : List Char) : ∃ blank trail, Blank blank ∧ Blank trail ∧
    text = blank ++ trim text ++ trail := by
  refine ⟨text.takeWhile isWhitespace,
    (text.dropWhile isWhitespace).rtakeWhile isWhitespace, ?_, ?_, ?_⟩
  · intro c member
    exact List.mem_takeWhile_imp member
  · intro c member
    exact List.mem_rtakeWhile_imp member
  · rw [trim, List.append_assoc, List.rdropWhile_append_rtakeWhile,
      List.takeWhile_append_dropWhile]

theorem infix_blank_append {pattern blank : List Char}
    (nonempty : pattern ≠ []) (apart : ∀ c ∈ pattern, c ∉ blank)
    (text : List Char) : pattern <:+: blank ++ text ↔ pattern <:+: text := by
  induction blank with
  | nil => rfl
  | cons c blank ih =>
      have notHere : ¬ pattern <+: c :: (blank ++ text) := by
        intro starts
        obtain ⟨first, rest, rfl⟩ := List.exists_cons_of_ne_nil nonempty
        obtain ⟨same, _⟩ := List.cons_prefix_cons.mp starts
        exact apart first List.mem_cons_self (same ▸ List.mem_cons_self)
      rw [List.cons_append, List.infix_cons_iff, or_iff_right notHere]
      apply ih
      intro c' member inBlank
      exact apart c' member (List.mem_cons_of_mem _ inBlank)

theorem infix_append_blank {pattern blank : List Char}
    (nonempty : pattern ≠ []) (apart : ∀ c ∈ pattern, c ∉ blank)
    (text : List Char) : pattern <:+: text ++ blank ↔ pattern <:+: text := by
  rw [← List.reverse_infix, List.reverse_append, infix_blank_append,
    List.reverse_infix]
  · simpa using nonempty
  · simpa using apart

/-! ## Trimming -/

theorem dropWhile_eq_self {test : Char → Bool} {text : List Char}
    (none : ∀ c ∈ text, test c = false) : text.dropWhile test = text := by
  cases text with
  | nil => rfl
  | cons c text =>
      rw [List.dropWhile_cons_of_neg]
      simp [none c List.mem_cons_self]

theorem rdropWhile_eq_self {test : Char → Bool} {text : List Char}
    (none : ∀ c ∈ text, test c = false) : text.rdropWhile test = text := by
  rw [List.rdropWhile, dropWhile_eq_self, List.reverse_reverse]
  simpa using none

theorem trim_eq_self {text : List Char}
    (visible : ∀ c ∈ text, isWhitespace c = false) : trim text = text := by
  rw [trim, dropWhile_eq_self visible, rdropWhile_eq_self visible]

end HfMount.Text
