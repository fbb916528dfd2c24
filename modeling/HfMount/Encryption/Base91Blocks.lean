import HfMount.Encryption.Base91
import HfMount.Lib.BlockCode
import HfMount.Lib.LittleEndian

/-!
# Base91 as a block code

The encoder cuts its input, read as one little-endian number, into blocks of a
code with the widths 13 and 14; the decoder packs the blocks that it reads.
Neither overflows.
-/

namespace HfMount.Encryption.Base91

open BlockCode CheckedWord LittleEndian Utf8

/-- The blocks of base91: 13 bits, or 14 when the low 13 are at most 88. -/
def blockCode : Code :=
  { narrow := 13
    positive := by decide
    wide := fun low => low ≤ 88 }

theorem width_eq (value : Nat) :
    blockCode.width value = if value % 8192 ≤ 88 then 14 else 13 := by
  simp [Code.width, blockCode]

theorem narrow_eq : blockCode.narrow = 13 := rfl

/-- Two symbols write exactly the blocks. -/
theorem fits_iff {value : Nat} : blockCode.Fits value ↔ value < 91 * 91 := by
  unfold Code.Fits
  rw [width_eq]
  split <;> omega

/-! ## What is written -/

def spellPair (block : Nat) : Bytes := [symbol (block % 91), symbol (block / 91)]

/-- The end of the encoding, for `left` bits that remain. -/
def spellTail (rest left : Nat) : Bytes :=
  if left = 0 then []
  else if 7 < left ∨ 90 < rest then spellPair rest
  else [symbol (rest % 91)]

def spelling (cut : List Nat × Nat × Nat) : Bytes :=
  cut.1.flatMap spellPair ++ spellTail cut.2.1 cut.2.2

/-! ## The encoder -/

/-- The bits that have been collected fit into 13 bits. -/
structure Collected (state : EncodeState) : Prop where
  small : state.acc < 2 ^ state.numBits
  short : state.numBits ≤ 13

theorem getElem?_pair {block : Nat} (small : block < 91 * 91) :
    alphabet[block % 91]? = some (symbol (block % 91)) ∧
      alphabet[block / 91]? = some (symbol (block / 91)) :=
  ⟨getElem?_alphabet (Nat.mod_lt _ (by decide)),
    getElem?_alphabet (Nat.div_lt_of_lt_mul small)⟩

/-- The block that the encoder takes out. -/
theorem first_eq (value : Nat) :
    (if 88 < value &&& 0x1fff then value &&& 0x1fff else value &&& 0x3fff) =
        blockCode.first value ∧
      (if 88 < value &&& 0x1fff then 13 else 14) = blockCode.width value := by
  have low : value &&& 0x1fff = value % 8192 :=
    Nat.and_two_pow_sub_one_eq_mod value 13
  have more : value &&& 0x3fff = value % 16384 :=
    Nat.and_two_pow_sub_one_eq_mod value 14
  rw [Code.first, width_eq, low, more]
  by_cases wide : value % 8192 ≤ 88
  · rw [if_neg (Nat.not_lt.mpr wide), if_neg (Nat.not_lt.mpr wide), if_pos wide]
    exact ⟨rfl, rfl⟩
  · rw [if_pos (Nat.lt_of_not_le wide), if_pos (Nat.lt_of_not_le wide),
      if_neg wide]
    exact ⟨rfl, rfl⟩

theorem encodeByte_eq {state : EncodeState} (collected : Collected state)
    (x : UInt8) :
    let known := state.acc + x.toNat * 2 ^ state.numBits
    let amount := state.numBits + 8
    encodeByte state x = some
      (if 13 < amount then
        { out := state.out ++ spellPair (blockCode.first known)
          acc := known / 2 ^ blockCode.width known
          numBits := amount - blockCode.width known }
      else { state with acc := known, numBits := amount }) := by
  intro known amount
  have amountShort : amount ≤ 21 := Nat.add_le_add_right collected.short 8
  have shiftFits : x.toNat * 2 ^ state.numBits < word := by
    have power : 2 ^ state.numBits ≤ 2 ^ 13 :=
      Nat.pow_le_pow_right (by decide) collected.short
    have byte := x.toNat_lt
    calc x.toNat * 2 ^ state.numBits ≤ 255 * 2 ^ 13 :=
          Nat.mul_le_mul (by omega) power
      _ < word := by decide
  have joined : state.acc ||| x.toNat * 2 ^ state.numBits = known :=
    or_shifted collected.small _
  unfold encodeByte
  rw [shl_eq (Nat.lt_of_le_of_lt collected.short (by decide)) shiftFits,
    Option.bind_eq_bind, Option.bind_some, joined,
    add_eq (show state.numBits + 8 < word by unfold word; omega)]
  simp only [Option.bind_eq_bind, Option.bind_some]
  by_cases long : 13 < amount
  · obtain ⟨block, taken⟩ := first_eq known
    have blockSmall := fits_iff.mp (blockCode.fits_first known)
    obtain ⟨first, second⟩ := getElem?_pair blockSmall
    have takenShort := blockCode.width_le known
    rw [narrow_eq] at takenShort
    rw [if_pos long, if_pos long, block, taken, shr_eq (by omega),
      sub_eq (show blockCode.width known ≤ amount by omega), first, second]
    rfl
  · rw [if_neg long, if_neg long]

/-- The state after a byte has collected at most 13 bits again. -/
theorem collected_next {state : EncodeState} (collected : Collected state)
    (x : UInt8) : ∀ next, encodeByte state x = some next → Collected next := by
  intro next stepped
  rw [encodeByte_eq collected x] at stepped
  obtain rfl := Option.some.inj stepped
  have small := add_shifted_lt collected.small x.toNat_lt
  have short := collected.short
  split <;> rename_i long
  · have taken := blockCode.width_le
      (state.acc + x.toNat * 2 ^ state.numBits)
    have least := blockCode.narrow_le_width
      (state.acc + x.toNat * 2 ^ state.numBits)
    rw [narrow_eq] at taken least
    constructor
    · rw [Nat.div_lt_iff_lt_mul (Nat.two_pow_pos _), ← Nat.pow_add,
        Nat.sub_add_cancel (by omega)]
      exact small
    · dsimp only
      omega
  · exact ⟨small, Nat.le_of_not_lt long⟩

theorem encodeTail_eq {state : EncodeState} (collected : Collected state) :
    encodeTail state =
      some (state.out ++ spellTail state.acc state.numBits) := by
  have power : 2 ^ state.numBits ≤ 2 ^ 13 :=
    Nat.pow_le_pow_right (by decide) collected.short
  have small : state.acc < 91 * 91 := by
    have := collected.small
    omega
  obtain ⟨first, second⟩ := getElem?_pair small
  unfold encodeTail spellTail
  rw [first, second]
  by_cases empty : state.numBits = 0
  · simp [empty]
  · rw [if_pos (Nat.pos_of_ne_zero empty), if_neg empty]
    by_cases two : 7 < state.numBits ∨ 90 < state.acc
    · rw [if_pos two]
      simp [two, spellPair]
    · rw [if_neg two]
      simp [two]

/-- The loop cuts off what is collected so far together with the rest. -/
theorem encodeBytes_eq (src : Bytes) {state : EncodeState}
    (collected : Collected state) :
    (src.foldlM encodeByte state).bind encodeTail = some (state.out ++ spelling
      (blockCode.split (state.acc + 2 ^ state.numBits * value src)
        (state.numBits + 8 * src.length))) := by
  induction src generalizing state with
  | nil =>
      have short : state.numBits ≤ blockCode.narrow := collected.short
      simp only [List.foldlM_nil, value_nil, Nat.mul_zero, Nat.add_zero,
        List.length_nil, blockCode.split_of_le short]
      exact encodeTail_eq collected
  | cons x src ih =>
      have stepped := encodeByte_eq collected x
      have next := collected_next collected x _ stepped
      rw [List.foldlM_cons, stepped, Option.bind_eq_bind, Option.bind_some,
        ih next]
      have whole : state.acc + 2 ^ state.numBits * value (x :: src) =
          state.acc + x.toNat * 2 ^ state.numBits +
            2 ^ (state.numBits + 8) * value src := by
        rw [value_cons, Nat.pow_add]
        ring
      have length : state.numBits + 8 * (x :: src).length =
          state.numBits + 8 + 8 * src.length := by
        rw [List.length_cons]
        ring
      rw [whole, length]
      split <;> rename_i long
      · rw [blockCode.split_known long]
        simp [spelling]
      · rfl

theorem spellPair_mem {block : Nat} (small : block < 91 * 91) :
    ∀ byte ∈ spellPair block, byte ∈ alphabet := by
  intro byte member
  rcases List.mem_cons.mp member with rfl | last
  · exact symbol_mem (Nat.mod_lt _ (by decide))
  · rw [List.mem_singleton.mp last]
    exact symbol_mem (Nat.div_lt_of_lt_mul small)

theorem rest_small {rest left : Nat} (small : rest < 2 ^ left)
    (short : left ≤ 13) : rest < 91 * 91 := by
  have power : 2 ^ left ≤ 2 ^ 13 := Nat.pow_le_pow_right (by decide) short
  omega

theorem spellTail_mem {rest left : Nat} (small : rest < 2 ^ left)
    (short : left ≤ 13) : ∀ byte ∈ spellTail rest left, byte ∈ alphabet := by
  intro byte member
  unfold spellTail at member
  split at member
  · cases member
  · split at member
    · exact spellPair_mem (rest_small small short) byte member
    · rw [List.mem_singleton.mp member]
      exact symbol_mem (Nat.mod_lt _ (by decide))

/-- The blocks of a byte string, and what is left. -/
abbrev cutOf (src : Bytes) : List Nat × Nat × Nat :=
  blockCode.split (value src) (8 * src.length)

theorem cut_cutOf (src : Bytes) :
    blockCode.Cut (value src) (8 * src.length) (cutOf src).1 (cutOf src).2.1
      (cutOf src).2.2 :=
  blockCode.cut_split (value_lt src)

theorem spelling_mem (src : Bytes) :
    ∀ byte ∈ spelling (cutOf src), byte ∈ alphabet := by
  have cut := cut_cutOf src
  intro byte member
  rcases List.mem_append.mp member with inBlock | inTail
  · obtain ⟨block, listed, written⟩ := List.mem_flatMap.mp inBlock
    exact spellPair_mem (fits_iff.mp (cut.fit block listed)) byte written
  · exact spellTail_mem cut.small cut.short byte inTail

/-- Encoding cannot fail, and writes the blocks of the input. -/
theorem encode_eq (src : Bytes) :
    encode src = some (asciiText (spelling (cutOf src))) := by
  have run := @encodeBytes_eq src .start ⟨by decide, by decide⟩
  simp only [EncodeState.start, Nat.pow_zero, Nat.one_mul, Nat.zero_add,
    List.nil_append] at run
  have ascii : ∀ byte ∈ spelling (cutOf src), byte < 128 :=
    fun byte member => alphabet_ascii byte (spelling_mem src byte member)
  obtain ⟨state, looped, tail⟩ := Option.bind_eq_some_iff.mp run
  simp only [encode, EncodeState.start, looped, tail, Option.bind_eq_bind,
    Option.bind_some, fromUtf8_ascii ascii]

theorem utf8_encode {src : Bytes} {text : List Char}
    (encoded : encode src = some text) : utf8 text = spelling (cutOf src) := by
  rw [encode_eq] at encoded
  obtain rfl := Option.some.inj encoded
  exact utf8_asciiText fun byte member =>
    alphabet_ascii byte (spelling_mem src byte member)

/-! ## The decoder -/

/-- `drain` pushes the whole bytes of the bits that are there. -/
structure Drained (b numBits : Nat) (more : Bytes) (rest left : Nat) :
    Prop where
  count : numBits = 8 * more.length + left
  short : left ≤ 7
  value : b = value more + 2 ^ (8 * more.length) * rest
  small : rest < 2 ^ left

theorem drain_eq (out : Bytes) {b numBits : Nat} (enough : 8 ≤ numBits)
    (small : b < 2 ^ numBits) :
    ∃ more rest left, drain out b numBits = some (out ++ more, rest, left) ∧
      Drained b numBits more rest left := by
  induction numBits using Nat.strong_induction_on generalizing out b with
  | _ numBits ih =>
      obtain ⟨later, rfl⟩ := Nat.exists_eq_add_of_le' enough
      have low : (UInt8.ofNat (b &&& 0xff)).toNat = b % 256 := by
        rw [show (0xff : Nat) = 2 ^ 8 - 1 from rfl,
          Nat.and_two_pow_sub_one_eq_mod, UInt8.toNat_ofNat', Nat.mod_mod]
      have high : b >>> 8 = b / 256 := Nat.shiftRight_eq_div_pow b 8
      have smallRest : b / 256 < 2 ^ later := by
        rw [Nat.div_lt_iff_lt_mul (by decide)]
        rwa [Nat.pow_add] at small
      rw [drain]
      split <;> rename_i short
      · refine ⟨[UInt8.ofNat (b &&& 0xff)], b / 256, later, by rw [high], ?_⟩
        refine ⟨by simp [Nat.add_comm], short, ?_, smallRest⟩
        rw [value_singleton, low]
        exact (Nat.mod_add_div b 256).symm
      · obtain ⟨more, rest, left, drained, spec⟩ := ih later (by omega)
          (out ++ [UInt8.ofNat (b &&& 0xff)]) (by omega) smallRest
        refine ⟨UInt8.ofNat (b &&& 0xff) :: more, rest, left, ?_, ?_⟩
        · rw [high, drained, List.append_assoc]
          rfl
        · refine ⟨?_, spec.short, ?_, spec.small⟩
          · have count := spec.count
            rw [List.length_cons]
            omega
          · have power : 2 ^ (8 * (more.length + 1)) =
                256 * 2 ^ (8 * more.length) := by
              rw [Nat.mul_add, Nat.pow_add, Nat.mul_comm]
            rw [value_cons, low, List.length_cons, power, Nat.mul_assoc,
              Nat.add_assoc, ← Nat.mul_add, ← spec.value, Nat.mod_add_div]

/-- The decoder has read these blocks and pushed their whole bytes. -/
structure Decoded (blocks : List Nat) (state : DecodeState) : Prop where
  out : state.out.length = blockCode.bits blocks / 8
  numBits : state.numBits = blockCode.bits blocks % 8
  packed : blockCode.pack blocks =
    value state.out + 2 ^ (8 * state.out.length) * state.b
  small : state.b < 2 ^ state.numBits

theorem decoded_start : Decoded [] .start := by
  constructor <;> simp [DecodeState.start]

theorem Decoded.count {blocks : List Nat} {state : DecodeState}
    (decoded : Decoded blocks state) :
    blockCode.bits blocks = 8 * state.out.length + state.numBits := by
  rw [decoded.out, decoded.numBits, Nat.div_add_mod]

theorem Decoded.short {blocks : List Nat} {state : DecodeState}
    (decoded : Decoded blocks state) : state.numBits ≤ 7 := by
  have := decoded.numBits
  omega

theorem shift_fits {high amount : Nat} (small : high < 91 * 91)
    (short : amount ≤ 7) : high * 2 ^ amount < word := by
  have power : 2 ^ amount ≤ 2 ^ 7 := Nat.pow_le_pow_right (by decide) short
  calc high * 2 ^ amount ≤ 91 * 91 * 2 ^ 7 :=
        Nat.mul_le_mul (Nat.le_of_lt small) power
    _ < word := by decide

theorem pair_width (block : Nat) :
    (if 88 < block &&& 0x1fff then 13 else 14) = blockCode.width block :=
  (first_eq block).2

/-- A pair of symbols adds its block. -/
theorem Decoded.pair {blocks : List Nat} {state : DecodeState}
    (decoded : Decoded blocks state) {acc idx : Nat} (accSmall : acc < 91)
    (idxSmall : idx < 91) :
    ∃ next, decodePair state acc idx = some next ∧ next.acc = none ∧
      Decoded (blocks ++ [acc + idx * 91]) next := by
  obtain ⟨block, blockDef⟩ : ∃ block, block = acc + idx * 91 := ⟨_, rfl⟩
  have blockSmall : block < 91 * 91 := by omega
  have short := decoded.short
  have fits := fits_iff.mpr blockSmall
  have least := blockCode.narrow_le_width block
  have most := blockCode.width_le block
  rw [narrow_eq] at least most
  have joined : state.b ||| block * 2 ^ state.numBits =
      state.b + block * 2 ^ state.numBits := or_shifted decoded.small _
  obtain ⟨more, rest, left, drained, spec⟩ := drain_eq state.out
    (show 8 ≤ state.numBits + blockCode.width block by omega)
    (add_shifted_lt decoded.small fits)
  refine ⟨⟨state.out ++ more, none, rest, left⟩, ?_, rfl, ?_⟩
  · unfold decodePair
    rw [mul_eq (show idx * 91 < word by unfold word; omega), Option.bind_eq_bind,
      Option.bind_some, add_eq (show acc + idx * 91 < word by unfold word; omega),
      ← blockDef, Option.bind_some, pair_width,
      shl_eq (by omega) (shift_fits blockSmall short), Option.bind_some,
      add_eq (show state.numBits + blockCode.width block < word by
        unfold word; omega), Option.bind_some, joined, drained]
    rfl
  · have count := decoded.count
    have total := spec.count
    have leftShort := spec.short
    rw [← blockDef]
    refine ⟨?_, ?_, ?_, spec.small⟩
    · rw [List.length_append, blockCode.bits_append, blockCode.bits_cons,
        blockCode.bits_nil]
      omega
    · rw [blockCode.bits_append, blockCode.bits_cons, blockCode.bits_nil]
      dsimp only
      omega
    · rw [blockCode.pack_append, blockCode.pack_singleton, decoded.packed,
        count, value_append, pow_256, List.length_append, Nat.mul_add,
        Nat.pow_add, Nat.pow_add]
      calc value state.out + 2 ^ (8 * state.out.length) * state.b +
            2 ^ (8 * state.out.length) * 2 ^ state.numBits * block
          = value state.out + 2 ^ (8 * state.out.length) *
              (state.b + block * 2 ^ state.numBits) := by ring
        _ = value state.out + 2 ^ (8 * state.out.length) *
              (value more + 2 ^ (8 * more.length) * rest) := by rw [spec.value]
        _ = _ := by ring

/-- Two symbol indices in a row are one block; the last one may be alone. -/
def pairUp : List Nat → List Nat × Option Nat
  | first :: second :: rest =>
      ((first + second * 91) :: (pairUp rest).1, (pairUp rest).2)
  | [last] => ([], some last)
  | [] => ([], none)

/-- Every byte is a symbol of the alphabet. -/
def Known (src : Bytes) : Prop := ∀ x ∈ src, inverse x ≠ noIndex

instance (src : Bytes) : Decidable (Known src) :=
  inferInstanceAs (Decidable (∀ x ∈ src, _))

theorem decodeByte_first {state : DecodeState} (fresh : state.acc = none)
    {x : UInt8} (known : inverse x ≠ noIndex) :
    decodeByte state x = some (.ok { state with acc := some (inverse x) }) := by
  simp only [decodeByte, if_neg known, fresh]

theorem decodeByte_second {state next : DecodeState} {acc : Nat}
    (waiting : state.acc = some acc) {x : UInt8} (known : inverse x ≠ noIndex)
    (paired : decodePair state acc (inverse x) = some next) :
    decodeByte state x = some (.ok next) := by
  simp only [decodeByte, if_neg known, waiting, paired, Option.map_some]

theorem decodeBytes_known : ∀ {src : Bytes} {blocks : List Nat}
    {state : DecodeState}, Decoded blocks state → state.acc = none →
    Known src →
    ∃ final, decodeBytes state src = some (.ok final) ∧
      Decoded (blocks ++ (pairUp (src.map inverse)).1) final ∧
      final.acc = (pairUp (src.map inverse)).2
  | [], blocks, state, decoded, fresh, _ =>
      ⟨state, rfl, by simpa [pairUp] using decoded, fresh⟩
  | [x], blocks, state, decoded, fresh, known => by
      have first := decodeByte_first fresh (known x List.mem_cons_self)
      refine ⟨{ state with acc := some (inverse x) }, ?_, ?_, rfl⟩
      · simp only [decodeBytes, first]
      · simp only [List.map_cons, List.map_nil, pairUp, List.append_nil]
        exact ⟨decoded.out, decoded.numBits, decoded.packed, decoded.small⟩
  | x :: y :: src, blocks, state, decoded, fresh, known => by
      have knownX := known x List.mem_cons_self
      have knownY := known y (List.mem_cons_of_mem _ List.mem_cons_self)
      have first := decodeByte_first fresh knownX
      have waiting : Decoded blocks { state with acc := some (inverse x) } :=
        ⟨decoded.out, decoded.numBits, decoded.packed, decoded.small⟩
      obtain ⟨next, paired, empty, decodedNext⟩ := waiting.pair
        (inverse_spec knownX).1 (inverse_spec knownY).1
      obtain ⟨final, run, decodedFinal, last⟩ := decodeBytes_known decodedNext
        empty fun byte member => known byte
          (List.mem_cons_of_mem _ (List.mem_cons_of_mem _ member))
      refine ⟨final, ?_, ?_, ?_⟩
      · simp only [decodeBytes, first, decodeByte_second rfl knownY paired, run]
      · simpa [pairUp] using decodedFinal
      · simpa [pairUp] using last

/-- A byte outside the alphabet ends the decoding. -/
theorem decodeBytes_unknown : ∀ {src : Bytes} {blocks : List Nat}
    {state : DecodeState}, Decoded blocks state → state.acc = none →
    ¬ Known src → decodeBytes state src = some (.error .invalidCharacter)
  | [], _, _, _, _, unknown => absurd (by simp [Known]) unknown
  | [x], _, state, _, _, unknown => by
      have bad : inverse x = noIndex := by simpa [Known] using unknown
      simp only [decodeBytes, decodeByte, bad, if_true]
  | x :: y :: src, blocks, state, decoded, fresh, unknown => by
      by_cases knownX : inverse x = noIndex
      · simp only [decodeBytes, decodeByte, knownX, if_true]
      have first := decodeByte_first fresh knownX
      by_cases knownY : inverse y = noIndex
      · simp only [decodeBytes, first]
        simp only [decodeByte, knownY, if_true]
      have waiting : Decoded blocks { state with acc := some (inverse x) } :=
        ⟨decoded.out, decoded.numBits, decoded.packed, decoded.small⟩
      obtain ⟨next, paired, empty, decodedNext⟩ := waiting.pair
        (inverse_spec knownX).1 (inverse_spec knownY).1
      have later : ¬ Known src := by
        intro known
        apply unknown
        intro byte member
        rcases List.mem_cons.mp member with rfl | member
        · exact knownX
        rcases List.mem_cons.mp member with rfl | member
        · exact knownY
        · exact known byte member
      have stopped := decodeBytes_unknown decodedNext empty later
      simp only [decodeBytes, first, decodeByte_second rfl knownY paired,
        stopped]

/-- What the decoder returns once all symbols are read. -/
def finish (out : Bytes) (b numBits : Nat) : Option Nat → Except Error Bytes
  | some a =>
      if 0xff < b + a * 2 ^ numBits then .error .invalidPadding
      else .ok (out ++ [UInt8.ofNat (b + a * 2 ^ numBits)])
  | none => if b ≠ 0 then .error .invalidPadding else .ok out

theorem pairUp_last_lt {src : Bytes} (known : Known src) :
    ∀ last ∈ (pairUp (src.map inverse)).2, last < 91 := by
  induction src using List.twoStepInduction with
  | nil => simp [pairUp]
  | singleton x =>
      simpa [pairUp] using (inverse_spec (known x List.mem_cons_self)).1
  | cons_cons x y src ih _ =>
      exact ih fun byte member => known byte
        (List.mem_cons_of_mem _ (List.mem_cons_of_mem _ member))

theorem decode_known {text : List Char} (known : Known (utf8 text)) :
    ∃ state, Decoded (pairUp ((utf8 text).map inverse)).1 state ∧
      decode text = some (finish state.out state.b state.numBits
        (pairUp ((utf8 text).map inverse)).2) := by
  obtain ⟨final, run, decoded, last⟩ :=
    decodeBytes_known decoded_start rfl known
  rw [List.nil_append] at decoded
  refine ⟨final, decoded, ?_⟩
  have short := decoded.short
  unfold decode
  rw [run]
  dsimp only
  unfold decodeTail finish
  rw [last]
  cases odd : (pairUp ((utf8 text).map inverse)).2 with
  | none =>
      dsimp only
      split <;> rfl
  | some a =>
      have small : a < 91 := pairUp_last_lt known a odd
      dsimp only
      rw [shl_eq (by omega) (shift_fits (by omega) short), Option.bind_eq_bind,
        Option.bind_some, or_shifted decoded.small]
      split <;> rename_i tooLarge
      · rfl
      · rw [show (0xff : Nat) = 2 ^ 8 - 1 from rfl,
          Nat.and_two_pow_sub_one_eq_mod, Nat.mod_eq_of_lt (by omega)]

theorem decode_unknown {text : List Char} (unknown : ¬ Known (utf8 text)) :
    decode text = some (.error .invalidCharacter) := by
  unfold decode
  rw [decodeBytes_unknown decoded_start rfl unknown]

/-- No string makes the decoder overflow. -/
theorem decode_total (text : List Char) : ∃ result, decode text = some result := by
  by_cases known : Known (utf8 text)
  · obtain ⟨state, _, decoded⟩ := decode_known known
    exact ⟨_, decoded⟩
  · exact ⟨_, decode_unknown known⟩

end HfMount.Encryption.Base91
