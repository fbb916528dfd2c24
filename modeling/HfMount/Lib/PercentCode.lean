import Mathlib.Data.List.Basic

/-!
# Percent coding

Some characters of a text are written as `%` and the two hexadecimal digits of
their code.  As long as `%` is one of them, and their codes fit into a byte, a
reader that turns every code back gets the text again.
-/

namespace HfMount.PercentCode

/-- The digit in upper case. -/
def hexDigit (value : Nat) : Char :=
  Char.ofNat (if value < 10 then 48 + value else 55 + value)

/-- `char::to_digit(16)`. -/
def hexValue (c : Char) : Option Nat :=
  if '0' ≤ c ∧ c ≤ '9' then some (c.toNat - 48)
  else if 'A' ≤ c ∧ c ≤ 'F' then some (c.toNat - 55)
  else if 'a' ≤ c ∧ c ≤ 'f' then some (c.toNat - 87)
  else none

def escape (code : Nat) : List Char :=
  ['%', hexDigit (code / 16), hexDigit (code % 16)]

def encode (escapes : Char → Bool) (text : List Char) : List Char :=
  text.flatMap fun c => if escapes c then escape c.toNat else [c]

/-- What does not begin a code stands for itself. -/
def decode : List Char → List Char
  | '%' :: high :: low :: rest =>
      match hexValue high, hexValue low with
      | some first, some second =>
          Char.ofNat (16 * first + second) :: decode rest
      | _, _ => '%' :: decode (high :: low :: rest)
  | c :: rest => c :: decode rest
  | [] => []

/-- The codes can be told from the text, and have two digits. -/
structure Codable (escapes : Char → Bool) (text : List Char) : Prop where
  percent : escapes '%' = true
  byte : ∀ c ∈ text, escapes c = true → c.toNat < 256

/-- A reader that turns codes back and leaves the rest. -/
structure Reads (read : List Char → List Char) : Prop where
  nil : read [] = []
  plain : ∀ c rest, c ≠ '%' → read (c :: rest) = c :: read rest
  code : ∀ code rest, code < 256 →
    read (escape code ++ rest) = Char.ofNat code :: read rest

section

variable {escapes : Char → Bool} {read : List Char → List Char}

theorem encode_cons (c : Char) (text : List Char) :
    encode escapes (c :: text) =
      (if escapes c then escape c.toNat else [c]) ++ encode escapes text :=
  rfl

/-- A reader gets the text back. -/
theorem Reads.encode (reads : Reads read) {text : List Char}
    (codable : Codable escapes text) :
    read (PercentCode.encode escapes text) = text := by
  obtain ⟨percent, byte⟩ := codable
  induction text with
  | nil => exact reads.nil
  | cons c text ih =>
      have rest := ih fun other member =>
        byte other (List.mem_cons_of_mem _ member)
      rw [encode_cons]
      split <;> rename_i isCoded
      · have small := byte c List.mem_cons_self isCoded
        rw [reads.code _ _ small, rest, Char.ofNat_toNat]
      · have plain : c ≠ '%' := by
          rintro rfl
          exact isCoded percent
        rw [List.singleton_append, reads.plain c _ plain, rest]

/-- A character that is coded, and is no part of a code, is gone. -/
theorem not_mem_encode {text : List Char} (codable : Codable escapes text)
    {c : Char} (isCoded : escapes c = true)
    (other : c ∉ '%' :: (List.range 16).map hexDigit) :
    c ∉ encode escapes text := by
  intro member
  obtain ⟨source, inText, part⟩ := List.mem_flatMap.mp member
  split at part <;> rename_i isSource
  · have small := codable.byte source inText isSource
    apply other
    simp only [escape, List.mem_cons, List.not_mem_nil, or_false] at part
    rcases part with isPercent | isHigh | isLow
    · exact List.mem_cons.mpr (Or.inl isPercent)
    · refine List.mem_cons_of_mem _ (List.mem_map.mpr ⟨_, ?_, isHigh.symm⟩)
      exact List.mem_range.mpr (by omega)
    · refine List.mem_cons_of_mem _ (List.mem_map.mpr ⟨_, ?_, isLow.symm⟩)
      exact List.mem_range.mpr (by omega)
  · rw [List.mem_singleton.mp part] at isCoded
    exact isSource isCoded

end

end HfMount.PercentCode
