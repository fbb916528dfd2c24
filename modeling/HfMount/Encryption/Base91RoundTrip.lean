import HfMount.Encryption.Base91Blocks

/-!
# Encoding and decoding base91

The decoder returns the bytes that a text spells (`Spells`), and what the
encoder writes spells its input.
-/

namespace HfMount.Encryption.Base91

open BlockCode CheckedWord LittleEndian Utf8

/-! ## Reading what was written -/

theorem known_of_alphabet {src : Bytes} (mem : ∀ x ∈ src, x ∈ alphabet) :
    Known src := by
  have all : ∀ x ∈ alphabet, inverse x ≠ noIndex := by decide +kernel
  exact fun x member => all x (mem x member)

theorem map_spellPair {block : Nat} (small : block < 91 * 91) :
    (spellPair block).map inverse = [block % 91, block / 91] := by
  simp only [spellPair, List.map_cons, List.map_nil,
    inverse_symbol (Nat.mod_lt block (by decide : 91 > 0)),
    inverse_symbol (Nat.div_lt_of_lt_mul small)]

theorem pairUp_spellPair {blocks : List Nat}
    (fit : ∀ block ∈ blocks, blockCode.Fits block) (tail : Bytes) :
    pairUp ((blocks.flatMap spellPair ++ tail).map inverse) =
      (blocks ++ (pairUp (tail.map inverse)).1,
        (pairUp (tail.map inverse)).2) := by
  induction blocks with
  | nil => rfl
  | cons block blocks ih =>
      have small := fits_iff.mp (fit block List.mem_cons_self)
      have rest := ih fun other member =>
        fit other (List.mem_cons_of_mem _ member)
      rw [List.flatMap_cons, List.append_assoc, List.map_append,
        map_spellPair small, List.cons_append, List.cons_append,
        List.nil_append, pairUp, rest, Nat.mul_comm, Nat.mod_add_div]
      rfl

/-- What the decoder finds after the blocks. -/
def tailOf (rest left : Nat) : List Nat × Option Nat :=
  if left = 0 then ([], none)
  else if 7 < left ∨ 90 < rest then ([rest], none)
  else ([], some rest)

theorem pairUp_spellTail {rest left : Nat} (small : rest < 2 ^ left)
    (short : left ≤ 13) :
    pairUp ((spellTail rest left).map inverse) = tailOf rest left := by
  unfold spellTail tailOf
  split
  · rfl
  · split <;> rename_i two
    · rw [map_spellPair (rest_small small short), pairUp, Nat.mul_comm,
        Nat.mod_add_div]
      rfl
    · have one : rest < 91 := by omega
      rw [Nat.mod_eq_of_lt one, List.map_cons, List.map_nil,
        inverse_symbol one, pairUp]

theorem pairUp_spelling (src : Bytes) :
    pairUp ((spelling (cutOf src)).map inverse) =
      ((cutOf src).1 ++ (tailOf (cutOf src).2.1 (cutOf src).2.2).1,
        (tailOf (cutOf src).2.1 (cutOf src).2.2).2) := by
  have cut := cut_cutOf src
  rw [spelling, pairUp_spellPair cut.fit, pairUp_spellTail cut.small cut.short]

/-! ## What a text spells -/

/-- The blocks of a text, and its last symbol when that is alone. -/
def readText (text : List Char) : List Nat × Option Nat :=
  pairUp ((utf8 text).map inverse)

/-- The blocks, with the last symbol above them when it is alone, are the
number of the byte string. -/
def Spells (read : List Nat × Option Nat) (bytes : Bytes) : Prop :=
  match read.2 with
  | none =>
      blockCode.bits read.1 / 8 = bytes.length ∧
        blockCode.pack read.1 = value bytes
  | some last =>
      blockCode.bits read.1 / 8 + 1 = bytes.length ∧
        blockCode.pack read.1 + 2 ^ blockCode.bits read.1 * last = value bytes

theorem Decoded.finish_none_iff {blocks : List Nat} {state : DecodeState}
    (decoded : Decoded blocks state) {bytes : Bytes} :
    finish state.out state.b state.numBits none = .ok bytes ↔
      Spells (blocks, none) bytes := by
  have split := decoded.packed
  simp only [finish, Spells]
  constructor
  · intro finished
    split at finished
    · cases finished
    · rename_i empty
      obtain rfl : state.out = bytes := by simpa using finished
      rw [not_not.mp empty, Nat.mul_zero, Nat.add_zero] at split
      exact ⟨decoded.out.symm, split⟩
  · rintro ⟨length, packed⟩
    have sameLength := decoded.out.trans length
    have bound := value_lt bytes
    rw [packed, sameLength] at split
    have empty : state.b = 0 := by
      by_contra some
      have least : 2 ^ (8 * bytes.length) ≤ 2 ^ (8 * bytes.length) * state.b :=
        Nat.le_mul_of_pos_right _ (Nat.pos_of_ne_zero some)
      omega
    rw [empty, Nat.mul_zero, Nat.add_zero] at split
    rw [if_neg (not_not.mpr empty), eq_of_value_eq sameLength split.symm]

/-- The bits that are left and the last symbol, as the last byte. -/
theorem Decoded.pack_last {blocks : List Nat} {state : DecodeState}
    (decoded : Decoded blocks state) (last : Nat) :
    blockCode.pack blocks + 2 ^ blockCode.bits blocks * last =
      value state.out +
        2 ^ (8 * state.out.length) * (state.b + last * 2 ^ state.numBits) := by
  rw [decoded.packed, decoded.count, Nat.pow_add]
  ring

theorem Decoded.finish_some_iff {blocks : List Nat} {state : DecodeState}
    (decoded : Decoded blocks state) {last : Nat} {bytes : Bytes} :
    finish state.out state.b state.numBits (some last) = .ok bytes ↔
      Spells (blocks, some last) bytes := by
  have whole := decoded.pack_last last
  have length := decoded.out
  simp only [finish, Spells]
  generalize state.b + last * 2 ^ state.numBits = byte at whole ⊢
  constructor
  · intro finished
    split at finished
    · cases finished
    · rename_i small
      obtain rfl : state.out ++ [UInt8.ofNat byte] = bytes := by
        simpa using finished
      rw [value_append, value_singleton, pow_256, UInt8.toNat_ofNat',
        Nat.mod_eq_of_lt (by omega), List.length_append, List.length_singleton]
      exact ⟨by rw [length], whole⟩
  · rintro ⟨sameLength, packed⟩
    have bound := value_lt bytes
    have small : byte < 256 := by
      by_contra large
      have least : 2 ^ (8 * state.out.length) * 256 ≤
          2 ^ (8 * state.out.length) * byte :=
        Nat.mul_le_mul_left _ (Nat.le_of_not_lt large)
      rw [← sameLength, ← length, Nat.mul_add, Nat.pow_add] at bound
      omega
    rw [if_neg (by omega)]
    congr 1
    apply eq_of_value_eq
    · rw [List.length_append, List.length_singleton, length, sameLength]
    · rw [value_append, value_singleton, pow_256, UInt8.toNat_ofNat',
        Nat.mod_eq_of_lt small, ← packed, whole]

/-- What is decoded is what the symbols spell. -/
theorem decode_ok_iff {text : List Char} {bytes : Bytes} :
    decode text = some (.ok bytes) ↔
      Known (utf8 text) ∧ Spells (readText text) bytes := by
  by_cases known : Known (utf8 text)
  · obtain ⟨state, decoded, result⟩ := decode_known known
    rw [result, Option.some.injEq]
    simp only [known, true_and, readText]
    generalize pairUp ((utf8 text).map inverse) = read at decoded
    obtain ⟨blocks, last⟩ := read
    cases last with
    | none => exact decoded.finish_none_iff
    | some last => exact decoded.finish_some_iff
  · simp [decode_unknown known, known]

/-! ## The round trip -/

/-- The bits that the last pair adds beyond the input are less than a byte. -/
theorem tail_pair_width {rest left : Nat} (small : rest < 2 ^ left)
    (short : left ≤ 13) (two : 7 < left ∨ 90 < rest) :
    left ≤ blockCode.width rest ∧ blockCode.width rest < left + 8 := by
  have least := blockCode.narrow_le_width rest
  have most := blockCode.width_le rest
  rw [narrow_eq] at least most
  refine ⟨by omega, ?_⟩
  by_cases long : 7 < left
  · omega
  · have large : 90 < rest := two.resolve_left long
    have atLeast : 6 < left := by
      by_contra few
      have power : 2 ^ left ≤ 2 ^ 6 :=
        Nat.pow_le_pow_right (by decide) (Nat.le_of_not_lt few)
      omega
    have power : 2 ^ left ≤ 2 ^ 7 :=
      Nat.pow_le_pow_right (by decide) (Nat.le_of_not_lt long)
    rw [width_eq, if_neg (by omega)]
    omega

theorem spells_cutOf (src : Bytes) :
    Spells ((cutOf src).1 ++ (tailOf (cutOf src).2.1 (cutOf src).2.2).1,
      (tailOf (cutOf src).2.1 (cutOf src).2.2).2) src := by
  have cut := cut_cutOf src
  generalize (cutOf src).1 = blocks at *
  generalize (cutOf src).2.1 = rest at *
  generalize (cutOf src).2.2 = left at *
  have small := cut.small
  have short : left ≤ 13 := cut.short
  have count := cut.count
  have packed := cut.value.symm
  unfold tailOf
  split
  · rename_i none
    subst none
    obtain rfl : rest = 0 := by simpa using small
    simp only [List.append_nil, Spells]
    exact ⟨by omega, by simpa using packed⟩
  split
  · rename_i two
    obtain ⟨least, most⟩ := tail_pair_width small short two
    simp only [Spells, blockCode.bits_append, blockCode.bits_cons,
      blockCode.bits_nil, blockCode.pack_append, blockCode.pack_singleton]
    exact ⟨by omega, packed⟩
  · simp only [List.append_nil, Spells]
    exact ⟨by omega, packed⟩

theorem decode_encode {src : Bytes} {text : List Char}
    (encoded : encode src = some text) : decode text = some (.ok src) := by
  have written := utf8_encode encoded
  rw [decode_ok_iff, readText, written, pairUp_spelling]
  exact ⟨known_of_alphabet (spelling_mem src), spells_cutOf src⟩

/-! ## The length of the encoding -/

theorem length_flatMap_spellPair (blocks : List Nat) :
    (blocks.flatMap spellPair).length = 2 * blocks.length := by
  induction blocks with
  | nil => rfl
  | cons block blocks ih =>
      rw [List.flatMap_cons, List.length_append, ih, List.length_cons]
      simp only [spellPair, List.length_cons, List.length_nil]
      omega

theorem narrow_mul_le_bits (blocks : List Nat) :
    13 * blocks.length ≤ blockCode.bits blocks := by
  induction blocks with
  | nil => simp
  | cons block blocks ih =>
      have least := blockCode.narrow_le_width block
      rw [narrow_eq] at least
      rw [blockCode.bits_cons, List.length_cons]
      omega

theorem length_spelling (src : Bytes) :
    (spelling (cutOf src)).length ≤ encodedLenUpperBound src.length := by
  have cut := cut_cutOf src
  have count := cut.count
  have least := narrow_mul_le_bits (cutOf src).1
  have tail : (spellTail (cutOf src).2.1 (cutOf src).2.2).length ≤
      if (cutOf src).2.2 = 0 then 0 else 2 := by
    unfold spellTail spellPair
    split
    · simp
    · split <;> simp
  rw [spelling, List.length_append, length_flatMap_spellPair]
  unfold encodedLenUpperBound
  dsimp only
  split at tail <;> split <;> omega

/-! ## Safe file names -/

theorem not_mem_encode {src : Bytes} {text : List Char}
    (encoded : encode src = some text) {char : Char}
    (absent : ∀ byte ∈ alphabet, Char.ofNat byte.toNat ≠ char) :
    char ∉ text := by
  rw [encode_eq] at encoded
  obtain rfl := Option.some.inj encoded
  intro member
  obtain ⟨byte, inside, same⟩ := List.mem_map.mp member
  exact absent byte (spelling_mem src byte inside) same

theorem slash_not_mem_encode {src : Bytes} {text : List Char}
    (encoded : encode src = some text) : '/' ∉ text := by
  have none : alphabet.all (Char.ofNat ·.toNat != '/') = true := by decide
  exact not_mem_encode encoded (by simpa using none)

theorem nul_not_mem_encode {src : Bytes} {text : List Char}
    (encoded : encode src = some text) : '\x00' ∉ text := by
  have none : alphabet.all (Char.ofNat ·.toNat != '\x00') = true := by decide
  exact not_mem_encode encoded (by simpa using none)

theorem length_encode_le {src : Bytes} {text : List Char}
    (encoded : encode src = some text) :
    text.length ≤ encodedLenUpperBound src.length := by
  rw [encode_eq] at encoded
  obtain rfl := Option.some.inj encoded
  rw [length_asciiText]
  exact length_spelling src

/-- What the encoder writes can be decoded and is safe as a file name, and
nothing makes the decoder overflow. -/
theorem base91_round_trip (src : Bytes) (text : List Char) :
    (∃ encoded, encode src = some encoded ∧
      decode encoded = some (.ok src) ∧
      (∀ x ∈ utf8 encoded, x ∈ alphabet) ∧
      '/' ∉ encoded ∧ '\x00' ∉ encoded ∧
      encoded.length ≤ encodedLenUpperBound src.length) ∧
    ∃ result, decode text = some result := by
  have encoded := encode_eq src
  refine ⟨⟨_, encoded, decode_encode encoded, ?_,
    slash_not_mem_encode encoded, nul_not_mem_encode encoded,
    length_encode_le encoded⟩, decode_total text⟩
  rw [utf8_encode encoded]
  exact spelling_mem src

end HfMount.Encryption.Base91
