import HfMount.Basic

/-!
# UTF-8

Text is a list of characters; `utf8` gives its bytes, and `fromUtf8` reads
bytes back where they are valid.
-/

namespace HfMount.Utf8

/-- `str::as_bytes`. -/
def utf8 (text : List Char) : Bytes :=
  text.flatMap String.utf8EncodeChar

/-- `str::from_utf8`. -/
def fromUtf8 (bytes : Bytes) : Option (List Char) :=
  bytes.toByteArray.utf8Decode?.map (·.toList)

@[simp] theorem utf8_nil : utf8 [] = [] := rfl

@[simp] theorem utf8_append (left right : List Char) :
    utf8 (left ++ right) = utf8 left ++ utf8 right := by
  simp [utf8]

theorem toByteArray_utf8 (text : List Char) :
    (utf8 text).toByteArray = text.utf8Encode := rfl

theorem fromUtf8_utf8 (text : List Char) :
    fromUtf8 (utf8 text) = some text := by
  rw [fromUtf8, toByteArray_utf8, List.utf8Decode?_utf8Encode]
  rfl

theorem utf8_injective {left right : List Char}
    (same : utf8 left = utf8 right) : left = right := by
  have read := fromUtf8_utf8 left
  rw [same, fromUtf8_utf8] at read
  exact (Option.some.inj read).symm

theorem utf8_eq_nil {text : List Char} : utf8 text = [] ↔ text = [] := by
  constructor
  · intro empty
    exact utf8_injective empty
  · rintro rfl
    rfl

/-! ## Replacing what is not valid -/

/-- The number of bytes that follow a leading byte, and the bounds of the first
of them. -/
def continuation (lead : UInt8) : Option (Nat × UInt8 × UInt8) :=
  if lead < 0x80 then some (0, 0x80, 0xBF)
  else if lead < 0xC2 then none
  else if lead ≤ 0xDF then some (1, 0x80, 0xBF)
  else if lead = 0xE0 then some (2, 0xA0, 0xBF)
  else if lead = 0xED then some (2, 0x80, 0x9F)
  else if lead ≤ 0xEF then some (2, 0x80, 0xBF)
  else if lead = 0xF0 then some (3, 0x90, 0xBF)
  else if lead ≤ 0xF3 then some (3, 0x80, 0xBF)
  else if lead = 0xF4 then some (3, 0x80, 0x8F)
  else none

/-- The length of the longest beginning that could begin a character, and
whether it is one. -/
def maximalPart (lead : UInt8) (rest : Bytes) : Nat × Bool :=
  match continuation lead, rest with
  | none, _ => (1, false)
  | some (0, _), _ => (1, true)
  | some (_ + 1, _), [] => (1, false)
  | some (more + 1, low, high), second :: others =>
      if low ≤ second ∧ second ≤ high then
        let following := (others.take more).takeWhile fun byte =>
          0x80 ≤ byte ∧ byte ≤ 0xBF
        (2 + following.length, following.length == more)
      else (1, false)

def replacement : Char := Char.ofNat 0xFFFD

/-- Reads on after bytes that are not valid; `fuel` bounds the bytes left. -/
def fromUtf8LossyFrom : Nat → Bytes → List Char
  | 0, _ => []
  | _, [] => []
  | fuel + 1, lead :: rest =>
      let part := maximalPart lead rest
      let chars :=
        if part.2 then
          (fromUtf8 ((lead :: rest).take part.1)).getD [replacement]
        else [replacement]
      chars ++ fromUtf8LossyFrom fuel ((lead :: rest).drop part.1)

/-- `String::from_utf8_lossy`. -/
def fromUtf8Lossy (bytes : Bytes) : List Char :=
  (fromUtf8 bytes).getD (fromUtf8LossyFrom bytes.length bytes)

theorem fromUtf8Lossy_utf8 (text : List Char) :
    fromUtf8Lossy (utf8 text) = text := by
  rw [fromUtf8Lossy, fromUtf8_utf8, Option.getD_some]

/-! ## ASCII -/

/-- The text whose characters are the bytes. -/
def asciiText (bytes : Bytes) : List Char :=
  bytes.map fun byte => Char.ofNat byte.toNat

theorem utf8EncodeChar_ofNat {byte : UInt8} (ascii : byte < 128) :
    String.utf8EncodeChar (Char.ofNat byte.toNat) = [byte] := by
  have all : ∀ index : Fin 128,
      String.utf8EncodeChar (Char.ofNat index.val) =
        [UInt8.ofNat index.val] := by decide
  have small : byte.toNat < 128 := ascii
  simpa using all ⟨byte.toNat, small⟩

/-- A byte below 128 stands for itself alone. -/
theorem eq_ofNat_of_mem_utf8EncodeChar {char : Char} {byte : UInt8}
    (ascii : byte < 128) (member : byte ∈ String.utf8EncodeChar char) :
    char = Char.ofNat byte.toNat := by
  have small : byte.toNat < 128 := ascii
  have high : ∀ {value : Nat}, 128 ≤ value → value < 256 →
      byte ≠ UInt8.ofNat value := by
    intro value low bound same
    rw [same, UInt8.toNat_ofNat_of_lt' bound] at small
    omega
  unfold String.utf8EncodeChar at member
  simp only at member
  split at member
  · rename_i low
    have same := List.mem_singleton.mp member
    have value : byte.toNat = char.toNat := by
      rw [same]
      exact UInt8.toNat_ofNat_of_lt' (Nat.lt_of_le_of_lt low (by decide))
    rw [value]
    exact (Char.ofNat_toNat char).symm
  -- Every byte of a longer form has its high bit set.
  · split at member
    · simp only [List.mem_cons, List.not_mem_nil, or_false] at member
      rcases member with same | same
      · exact absurd same (high (by omega) (by omega))
      · exact absurd same (high (by omega) (by omega))
    · split at member
      · simp only [List.mem_cons, List.not_mem_nil, or_false] at member
        rcases member with same | same | same
        · exact absurd same (high (by omega) (by omega))
        · exact absurd same (high (by omega) (by omega))
        · exact absurd same (high (by omega) (by omega))
      · simp only [List.mem_cons, List.not_mem_nil, or_false] at member
        rcases member with same | same | same | same
        · exact absurd same (high (by omega) (by omega))
        · exact absurd same (high (by omega) (by omega))
        · exact absurd same (high (by omega) (by omega))
        · exact absurd same (high (by omega) (by omega))

theorem mem_utf8_ascii {byte : UInt8} (ascii : byte < 128)
    (text : List Char) :
    byte ∈ utf8 text ↔ Char.ofNat byte.toNat ∈ text := by
  rw [utf8, List.mem_flatMap]
  constructor
  · rintro ⟨char, member, part⟩
    rwa [← eq_ofNat_of_mem_utf8EncodeChar ascii part]
  · intro member
    refine ⟨_, member, ?_⟩
    rw [utf8EncodeChar_ofNat ascii]
    exact List.mem_singleton_self byte

theorem utf8_asciiText {bytes : Bytes}
    (ascii : ∀ byte ∈ bytes, byte < 128) : utf8 (asciiText bytes) = bytes := by
  induction bytes with
  | nil => rfl
  | cons byte bytes ih =>
      have rest := ih fun other member =>
        ascii other (List.mem_cons_of_mem _ member)
      simp only [asciiText, utf8, List.map_cons, List.flatMap_cons] at rest ⊢
      rw [utf8EncodeChar_ofNat (ascii byte List.mem_cons_self), rest]
      rfl

theorem fromUtf8_ascii {bytes : Bytes} (ascii : ∀ byte ∈ bytes, byte < 128) :
    fromUtf8 bytes = some (asciiText bytes) := by
  have read := fromUtf8_utf8 (asciiText bytes)
  rwa [utf8_asciiText ascii] at read

@[simp] theorem length_asciiText (bytes : Bytes) :
    (asciiText bytes).length = bytes.length := List.length_map _

end HfMount.Utf8
