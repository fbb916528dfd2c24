import HfMount.Encryption.Base91RoundTrip

/-!
# Texts that base91 does not write

The decoder accepts texts that the encoder never writes: a symbol alone that
begins a byte, where the encoder writes a pair, and a pair for the last seven
bits, where the encoder writes one symbol.  `Canonical` excludes exactly
these.  A text that has no second spelling at all is `Unambiguous`.
-/

namespace HfMount.Encryption.Base91

open BlockCode LittleEndian Utf8

/-- The last symbol, if it is alone, does not begin a byte; the last pair
does not follow the first bit of a byte, unless one symbol cannot hold it. -/
def Canonical (text : List Char) : Prop :=
  match (readText text).2 with
  | some _ => blockCode.bits (readText text).1 % 8 ≠ 0
  | none =>
      ∀ last ∈ (readText text).1.getLast?, last ≤ 90 →
        blockCode.bits (readText text).1.dropLast % 8 ≠ 1

/-- What the last symbol writes does not begin at the first or the second bit
of a byte, unless it takes a pair. -/
def Unambiguous (text : List Char) : Prop :=
  match (readText text).2 with
  | some _ => 1 < blockCode.bits (readText text).1 % 8
  | none =>
      ∀ last ∈ (readText text).1.getLast?, last ≤ 90 →
        1 < blockCode.bits (readText text).1.dropLast % 8

instance (text : List Char) : Decidable (Canonical text) :=
  match equation : (readText text).2 with
  | some _ =>
      decidable_of_iff (blockCode.bits (readText text).1 % 8 ≠ 0)
        (by rw [Canonical, equation])
  | none =>
      decidable_of_iff (∀ last ∈ (readText text).1.getLast?, last ≤ 90 →
          blockCode.bits (readText text).1.dropLast % 8 ≠ 1)
        (by rw [Canonical, equation])

instance (text : List Char) : Decidable (Unambiguous text) :=
  match equation : (readText text).2 with
  | some _ =>
      decidable_of_iff (1 < blockCode.bits (readText text).1 % 8)
        (by rw [Unambiguous, equation])
  | none =>
      decidable_of_iff (∀ last ∈ (readText text).1.getLast?, last ≤ 90 →
          1 < blockCode.bits (readText text).1.dropLast % 8)
        (by rw [Unambiguous, equation])

/-! ## From the symbols back to the text -/

/-- The symbols that read as these blocks and this last symbol. -/
def writeRead (read : List Nat × Option Nat) : Bytes :=
  read.1.flatMap spellPair ++ (read.2.map symbol).toList

theorem spellPair_eq {first second : Nat} (small : first < 91) :
    spellPair (first + second * 91) = [symbol first, symbol second] := by
  rw [spellPair, Nat.add_mul_mod_self_right, Nat.mod_eq_of_lt small,
    Nat.add_mul_div_right _ _ (by decide), Nat.div_eq_of_lt small, Nat.zero_add]

theorem writeRead_pairUp {src : Bytes} (known : Known src) :
    writeRead (pairUp (src.map inverse)) = src := by
  induction src using List.twoStepInduction with
  | nil => rfl
  | singleton x =>
      simpa [writeRead, pairUp] using
        (inverse_spec (known x List.mem_cons_self)).2
  | cons_cons x y src ih _ =>
      have first := inverse_spec (known x List.mem_cons_self)
      have second := inverse_spec
        (known y (List.mem_cons_of_mem _ List.mem_cons_self))
      have rest := ih fun byte member => known byte
        (List.mem_cons_of_mem _ (List.mem_cons_of_mem _ member))
      simp only [writeRead] at rest
      simp only [writeRead, List.map_cons, pairUp, List.flatMap_cons,
        spellPair_eq first.1, first.2, second.2, List.append_assoc, rest]
      rfl

theorem writeRead_readText {text : List Char} (known : Known (utf8 text)) :
    writeRead (readText text) = utf8 text := writeRead_pairUp known

/-- Symbols below 91 and blocks below `91 * 91`. -/
def Readable (read : List Nat × Option Nat) : Prop :=
  (∀ block ∈ read.1, blockCode.Fits block) ∧ ∀ last ∈ read.2, last < 91

theorem readable_pairUp {src : Bytes} (known : Known src) :
    Readable (pairUp (src.map inverse)) := by
  refine ⟨?_, pairUp_last_lt known⟩
  induction src using List.twoStepInduction with
  | nil => simp [pairUp]
  | singleton x => simp [pairUp]
  | cons_cons x y src ih _ =>
      have first := inverse_spec (known x List.mem_cons_self)
      have second := inverse_spec
        (known y (List.mem_cons_of_mem _ List.mem_cons_self))
      have rest := ih fun byte member => known byte
        (List.mem_cons_of_mem _ (List.mem_cons_of_mem _ member))
      intro block member
      rcases List.mem_cons.mp member with rfl | later
      · apply fits_iff.mpr
        omega
      · exact rest block later

theorem readText_of_written {read : List Nat × Option Nat}
    (readable : Readable read) {text : List Char}
    (written : utf8 text = writeRead read) : readText text = read := by
  obtain ⟨blocks, last⟩ := read
  rw [readText, written, writeRead, pairUp_spellPair readable.1]
  cases last with
  | none => simp [pairUp]
  | some last => simp [pairUp, inverse_symbol (readable.2 last rfl)]

/-- A text that reads as given blocks and a given last symbol. -/
theorem exists_text {read : List Nat × Option Nat} (readable : Readable read) :
    ∃ text, Known (utf8 text) ∧ readText text = read := by
  have mem : ∀ byte ∈ writeRead read, byte ∈ alphabet := by
    intro byte member
    rcases List.mem_append.mp member with inBlocks | inLast
    · obtain ⟨block, inside, here⟩ := List.mem_flatMap.mp inBlocks
      exact spellPair_mem (fits_iff.mp (readable.1 block inside)) byte here
    · obtain ⟨last, found, rfl⟩ := Option.map_eq_some_iff.mp
        (Option.mem_toList.mp inLast)
      exact symbol_mem (readable.2 last found)
  have bytes : utf8 (asciiText (writeRead read)) = writeRead read :=
    utf8_asciiText fun byte member => alphabet_ascii byte (mem byte member)
  refine ⟨asciiText (writeRead read), ?_, readText_of_written readable bytes⟩
  rw [bytes]
  exact known_of_alphabet mem

/-! ## The spellings of a byte string -/

/-- The cut of the bytes that blocks and a symbol alone spell. -/
theorem Spells.cut_some {blocks : List Nat} {last : Nat} {bytes : Bytes}
    (spells : Spells (blocks, some last) bytes)
    (readable : Readable (blocks, some last)) :
    cutOf bytes = (blocks, last, 8 - blockCode.bits blocks % 8) := by
  obtain ⟨length, packed⟩ := spells
  have count : 8 * bytes.length =
      blockCode.bits blocks + (8 - blockCode.bits blocks % 8) := by
    simp only at length
    omega
  have short : 8 - blockCode.bits blocks % 8 ≤ blockCode.narrow := by
    rw [narrow_eq]
    omega
  rw [cutOf, ← packed, count, blockCode.split_pack readable.1 _ (by omega),
    blockCode.split_of_le short, List.append_nil]

/-- How many bits of the last block belong to the bytes that are spelled. -/
theorem Spells.last_block {blocks : List Nat} {last : Nat} {bytes : Bytes}
    (spells : Spells (blocks ++ [last], none) bytes) :
    ∃ left, 8 * bytes.length = blockCode.bits blocks + left ∧ 7 ≤ left ∧
      left ≤ blockCode.width last ∧ blockCode.width last ≤ left + 7 ∧
      last < 2 ^ left ∧
      value bytes = blockCode.pack blocks + 2 ^ blockCode.bits blocks * last := by
  obtain ⟨length, packed⟩ := spells
  simp only [blockCode.bits_append, blockCode.bits_cons, blockCode.bits_nil,
    blockCode.pack_append, blockCode.pack_singleton] at length packed
  have least := blockCode.narrow_le_width last
  rw [narrow_eq] at least
  obtain ⟨left, count⟩ : ∃ left,
      8 * bytes.length = blockCode.bits blocks + left :=
    ⟨8 * bytes.length - blockCode.bits blocks, by omega⟩
  have bound := value_lt bytes
  have small : last < 2 ^ left := by
    rw [← packed, count, Nat.pow_add] at bound
    have most : 2 ^ blockCode.bits blocks * last <
        2 ^ blockCode.bits blocks * 2 ^ left := by omega
    exact Nat.lt_of_mul_lt_mul_left most
  refine ⟨left, count, ?_, by omega, by omega, small, packed.symm⟩
  -- Fewer than seven bits are a number that would take 14.
  by_contra few
  have power : 2 ^ left ≤ 2 ^ 6 :=
    Nat.pow_le_pow_right (by decide) (by omega)
  have wide : blockCode.width last = 14 := by
    rw [width_eq, if_pos (by omega)]
  omega

theorem Spells.cut_none {blocks : List Nat} {last : Nat} {bytes : Bytes}
    (spells : Spells (blocks ++ [last], none) bytes)
    (readable : Readable (blocks ++ [last], none)) :
    spelling (cutOf bytes) = blocks.flatMap spellPair ++
      if last ≤ 90 ∧ blockCode.bits blocks % 8 = 1 then [symbol last]
      else spellPair last := by
  obtain ⟨left, count, least, most, close, small, packed⟩ := spells.last_block
  have fitLast : blockCode.Fits last := readable.1 last (by simp)
  have fit : ∀ block ∈ blocks, blockCode.Fits block :=
    fun block member => readable.1 block (List.mem_append_left _ member)
  have bound := blockCode.width_le last
  rw [narrow_eq] at bound
  rw [cutOf, packed, count, blockCode.split_pack fit last (by omega)]
  by_cases full : left = 14
  · subst full
    have width : blockCode.width last = 14 := by omega
    have whole := blockCode.split_block fitLast 0 0
      (by rw [width, narrow_eq]; decide)
    rw [width, Nat.mul_zero, Nat.add_zero, Nat.add_zero,
      blockCode.split_of_le (Nat.zero_le _)] at whole
    have offset : blockCode.bits blocks % 8 ≠ 1 := by omega
    rw [whole, if_neg (fun both => offset both.2)]
    simp [spelling, spellTail]
  · have short : left ≤ blockCode.narrow := by
      rw [narrow_eq]
      omega
    rw [blockCode.split_of_le short, List.append_nil]
    simp only [spelling, spellTail, if_neg (show left ≠ 0 by omega)]
    congr 1
    by_cases one : last ≤ 90 ∧ blockCode.bits blocks % 8 = 1
    · have exact : left = 7 := by omega
      rw [if_pos one, if_neg (by omega), Nat.mod_eq_of_lt (by omega)]
    · rw [if_neg one, if_pos (by omega)]

theorem spelling_of_spells_some {blocks : List Nat} {last : Nat}
    {bytes : Bytes} (spells : Spells (blocks, some last) bytes)
    (readable : Readable (blocks, some last)) :
    spelling (cutOf bytes) = blocks.flatMap spellPair ++
      if blockCode.bits blocks % 8 = 0 then spellPair last
      else [symbol last] := by
  have small := readable.2 last rfl
  rw [spells.cut_some readable]
  simp only [spelling, spellTail]
  rw [if_neg (by omega)]
  congr 1
  by_cases begins : blockCode.bits blocks % 8 = 0
  · rw [if_pos begins, if_pos (by omega)]
  · rw [if_neg begins, if_neg (by omega), Nat.mod_eq_of_lt small]

/-- At the start of a byte or after its first bit it does not matter whether
the last symbol is alone or the first of a pair. -/
theorem spells_alone_iff {blocks : List Nat} {last : Nat}
    (begins : blockCode.bits blocks % 8 ≤ 1) {bytes : Bytes} :
    Spells (blocks, some last) bytes ↔
      Spells (blocks ++ [last], none) bytes := by
  have least := blockCode.narrow_le_width last
  have most := blockCode.width_le last
  rw [narrow_eq] at least most
  simp only [Spells, blockCode.bits_append, blockCode.bits_cons,
    blockCode.bits_nil, blockCode.pack_append, blockCode.pack_singleton]
  have length : (blockCode.bits blocks + (blockCode.width last + 0)) / 8 =
      blockCode.bits blocks / 8 + 1 := by omega
  rw [length]

/-- Such a text is accepted. -/
theorem exists_spelled {blocks : List Nat} {last : Nat}
    (readable : Readable (blocks, some last))
    (begins : blockCode.bits blocks % 8 ≤ 1) :
    ∃ bytes, Spells (blocks, some last) bytes := by
  obtain ⟨text, known, read⟩ := exists_text readable
  obtain ⟨state, decoded, result⟩ := decode_known known
  change readText text = (blocks, some last) at read
  rw [← readText, read] at decoded result
  have small := readable.2 last rfl
  have power : 2 ^ state.numBits ≤ 2 ^ 1 :=
    Nat.pow_le_pow_right (by decide) (decoded.numBits ▸ begins)
  have bit := decoded.small
  have byte : last * 2 ^ state.numBits ≤ 90 * 2 ^ 1 :=
    Nat.mul_le_mul (by omega) power
  simp only [finish] at result
  rw [if_neg (by omega)] at result
  have spelled := (decode_ok_iff.mp result).2
  rw [read] at spelled
  exact ⟨_, spelled⟩

/-! ## Which texts are written back -/

theorem encode_eq_some_iff {text : List Char} (known : Known (utf8 text))
    {bytes : Bytes} :
    encode bytes = some text ↔
      spelling (cutOf bytes) = writeRead (readText text) := by
  rw [writeRead_readText known]
  constructor
  · exact fun encoded => (utf8_encode encoded).symm
  · intro same
    have written := utf8_encode (encode_eq bytes)
    rw [encode_eq]
    exact congrArg some (utf8_injective (written.trans same))

theorem writeRead_concat (blocks : List Nat) (last : Nat) :
    writeRead (blocks ++ [last], none) =
      blocks.flatMap spellPair ++ spellPair last := by
  simp [writeRead]

theorem canonical_some {text : List Char} {blocks : List Nat} {last : Nat}
    (read : readText text = (blocks, some last)) :
    Canonical text ↔ blockCode.bits blocks % 8 ≠ 0 := by
  rw [Canonical, read]

theorem canonical_none {text : List Char} {blocks : List Nat} {last : Nat}
    (read : readText text = (blocks ++ [last], none)) :
    Canonical text ↔ ¬ (last ≤ 90 ∧ blockCode.bits blocks % 8 = 1) := by
  simp only [Canonical, read, List.getLast?_concat, Option.mem_some_iff,
    List.dropLast_concat, forall_eq', not_and]

theorem unambiguous_some {text : List Char} {blocks : List Nat} {last : Nat}
    (read : readText text = (blocks, some last)) :
    Unambiguous text ↔ 1 < blockCode.bits blocks % 8 := by
  rw [Unambiguous, read]

theorem unambiguous_none {text : List Char} {blocks : List Nat} {last : Nat}
    (read : readText text = (blocks ++ [last], none)) :
    Unambiguous text ↔
      (last ≤ 90 → 1 < blockCode.bits blocks % 8) := by
  simp only [Unambiguous, read, List.getLast?_concat, Option.mem_some_iff,
    List.dropLast_concat, forall_eq']

theorem Unambiguous.canonical {text : List Char}
    (unambiguous : Unambiguous text) : Canonical text := by
  unfold Unambiguous at unambiguous
  unfold Canonical
  split <;> rename_i last
  · rw [last] at unambiguous
    have : 1 < blockCode.bits (readText text).1 % 8 := unambiguous
    omega
  · rw [last] at unambiguous
    intro block member small one
    have := unambiguous block member small
    omega

/-- A decoded text is written back exactly if it is canonical. -/
theorem encode_decoded_iff {text : List Char} {bytes : Bytes}
    (decoded : decode text = some (.ok bytes)) :
    encode bytes = some text ↔ Canonical text := by
  obtain ⟨known, spells⟩ := decode_ok_iff.mp decoded
  have readable : Readable (readText text) := readable_pairUp known
  rw [encode_eq_some_iff known]
  generalize equation : readText text = read at spells readable
  obtain ⟨blocks, last⟩ := read
  cases last with
  | some last =>
      rw [spelling_of_spells_some spells readable, canonical_some equation,
        writeRead, List.append_cancel_left_eq]
      split <;> rename_i begins <;> simp [begins, spellPair]
  | none =>
      rcases List.eq_nil_or_concat blocks with rfl | ⟨init, last, rfl⟩
      · have empty : bytes = [] := by
          have length := spells.1
          simpa using length.symm
        subst empty
        simp [Canonical, equation, writeRead, spelling, spellTail, cutOf,
          blockCode.split_of_le (Nat.zero_le _)]
      · rw [List.concat_eq_append] at spells readable equation ⊢
        rw [spells.cut_none readable, canonical_none equation,
          writeRead_concat, List.append_cancel_left_eq]
        split <;> rename_i one <;> simp [one, spellPair]

/-- A known text that is not canonical is accepted. -/
theorem accepted_of_not_canonical {text : List Char}
    (known : Known (utf8 text)) (other : ¬ Canonical text) :
    ∃ bytes, decode text = some (.ok bytes) := by
  have readable : Readable (readText text) := readable_pairUp known
  simp only [decode_ok_iff, known, true_and]
  generalize equation : readText text = read at readable
  obtain ⟨blocks, last⟩ := read
  cases last with
  | some last =>
      rw [canonical_some equation, not_not] at other
      exact exists_spelled readable (by omega)
  | none =>
      rcases List.eq_nil_or_concat blocks with rfl | ⟨init, last, rfl⟩
      · exact absurd (by simp [Canonical, equation]) other
      · rw [List.concat_eq_append] at readable equation ⊢
        rw [canonical_none equation, not_not] at other
        have alone : Readable (init, some last) := by
          refine ⟨fun block member =>
            readable.1 block (List.mem_append_left _ member), ?_⟩
          intro symbol same
          obtain rfl : last = symbol := Option.some.inj same
          omega
        obtain ⟨bytes, spells⟩ := exists_spelled alone (by omega)
        exact ⟨bytes, (spells_alone_iff (by omega)).mp spells⟩

/-- The texts for which decoding is undone by encoding. -/
theorem reencodes_iff (text : List Char) :
    (∀ bytes, decode text = some (.ok bytes) → encode bytes = some text) ↔
      (Known (utf8 text) → Canonical text) := by
  constructor
  · intro reencodes known
    by_contra other
    obtain ⟨bytes, decoded⟩ := accepted_of_not_canonical known other
    exact other ((encode_decoded_iff decoded).mp (reencodes bytes decoded))
  · intro canonical bytes decoded
    exact (encode_decoded_iff decoded).mpr
      (canonical (decode_ok_iff.mp decoded).1)

/-! ## Second spellings -/

theorem canonical_unique {left right : List Char} {bytes : Bytes}
    (decodedLeft : decode left = some (.ok bytes))
    (decodedRight : decode right = some (.ok bytes))
    (canonicalLeft : Canonical left) (canonicalRight : Canonical right) :
    left = right := by
  have first := (encode_decoded_iff decodedLeft).mpr canonicalLeft
  have second := (encode_decoded_iff decodedRight).mpr canonicalRight
  exact Option.some.inj (first.symm.trans second)

/-- An ambiguous text has a second spelling; one of the two is canonical. -/
theorem exists_twin {text : List Char} {bytes : Bytes}
    (decoded : decode text = some (.ok bytes))
    (ambiguous : ¬ Unambiguous text) :
    ∃ twin, decode twin = some (.ok bytes) ∧ twin ≠ text ∧
      ¬ Unambiguous twin ∧ (Canonical twin ↔ ¬ Canonical text) := by
  obtain ⟨known, spells⟩ := decode_ok_iff.mp decoded
  have readable : Readable (readText text) := readable_pairUp known
  generalize equation : readText text = read at spells readable
  obtain ⟨blocks, last⟩ := read
  cases last with
  | some last =>
      rw [unambiguous_some equation] at ambiguous
      have small := readable.2 last rfl
      have paired : Readable (blocks ++ [last], none) := by
        refine ⟨?_, by simp⟩
        intro block member
        rcases List.mem_append.mp member with earlier | here
        · exact readable.1 block earlier
        · rw [List.mem_singleton.mp here]
          apply fits_iff.mpr
          omega
      obtain ⟨twin, twinKnown, twinRead⟩ := exists_text paired
      refine ⟨twin, ?_, ?_, ?_, ?_⟩
      · rw [decode_ok_iff, twinRead]
        exact ⟨twinKnown, (spells_alone_iff (by omega)).mp spells⟩
      · rintro rfl
        rw [twinRead] at equation
        simp at equation
      · rw [unambiguous_none twinRead]
        omega
      · rw [canonical_none twinRead, canonical_some equation]
        omega
  | none =>
      rcases List.eq_nil_or_concat blocks with rfl | ⟨init, last, rfl⟩
      · exact absurd (by simp [Unambiguous, equation]) ambiguous
      rw [List.concat_eq_append] at spells readable equation
      rw [unambiguous_none equation] at ambiguous
      have small : last < 91 := by omega
      have alone : Readable (init, some last) := by
        refine ⟨fun block member =>
          readable.1 block (List.mem_append_left _ member), ?_⟩
        intro symbol same
        rwa [← Option.some.inj same]
      obtain ⟨twin, twinKnown, twinRead⟩ := exists_text alone
      refine ⟨twin, ?_, ?_, ?_, ?_⟩
      · rw [decode_ok_iff, twinRead]
        exact ⟨twinKnown, (spells_alone_iff (by omega)).mpr spells⟩
      · rintro rfl
        rw [twinRead] at equation
        simp at equation
      · rw [unambiguous_some twinRead]
        omega
      · rw [canonical_some twinRead, canonical_none equation]
        omega

/-- The texts that are the only one to be decoded to their bytes. -/
theorem only_spelling_iff {text : List Char} {bytes : Bytes}
    (decoded : decode text = some (.ok bytes)) :
    (∀ other, decode other = some (.ok bytes) → other = text) ↔
      Unambiguous text := by
  constructor
  · intro only
    by_contra ambiguous
    obtain ⟨twin, twinDecoded, different, _⟩ := exists_twin decoded ambiguous
    exact different (only twin twinDecoded)
  · intro unambiguous other otherDecoded
    have canonical := unambiguous.canonical
    by_cases written : Canonical other
    · exact canonical_unique otherDecoded decoded written canonical
    · have ambiguous : ¬ Unambiguous other :=
        fun single => written single.canonical
      obtain ⟨twin, twinDecoded, _, twinAmbiguous, twinCanonical⟩ :=
        exists_twin otherDecoded ambiguous
      have same := canonical_unique twinDecoded decoded
        (twinCanonical.mpr written) canonical
      exact absurd unambiguous (same ▸ twinAmbiguous)

end HfMount.Encryption.Base91
