import HfMount.Basic
import HfMount.Lib.CheckedU64
import HfMount.Lib.Slice

/-!
# Encrypted containers

An encrypted object is a 6-byte prefix, the 64-byte header of a RAF container
and one slot of fixed size for each 64 KiB of plaintext.  A read fetches only
the slots that cover it.  There are three coordinates: plaintext, container
(RAF) and object, which is the container shifted by the prefix.
-/

namespace HfMount.Encryption.Content

open CheckedU64 Slice

def hfebHeaderLen : Nat := 6

def rafHeaderLen : Nat := 64

def rafChunkSize : Nat := 65536

def rafChunkOverhead : Nat := 32

def rafChunkRecord : Nat := rafChunkSize + rafChunkOverhead

def containerHeaderLen : Nat := hfebHeaderLen + rafHeaderLen

/-- `none` is an overflow. -/
def ciphertextSize (plaintext : Nat) : Option Nat := do
  let slots ← mul (divCeil plaintext rafChunkSize) rafChunkRecord
  add containerHeaderLen slots

/-- The number of slots, or `none` for a size that no container has. -/
def containerChunkCount (ciphertext : Nat) : Option Nat := do
  let body ← sub ciphertext containerHeaderLen
  if body % rafChunkRecord = 0 then some (body / rafChunkRecord) else none

/-- The positions from `start` up to, and without, `stop`. -/
structure Range where
  start : Nat
  stop : Nat
  deriving DecidableEq

namespace Range

def Contains (range : Range) (position : Nat) : Prop :=
  range.start ≤ position ∧ position < range.stop

/-- The first range is a part of the second. -/
def Within (inner outer : Range) : Prop :=
  outer.start ≤ inner.start ∧ inner.stop ≤ outer.stop

def Meets (left right : Range) : Prop :=
  ∃ position, left.Contains position ∧ right.Contains position

instance (inner outer : Range) : Decidable (inner.Within outer) :=
  inferInstanceAs (Decidable (_ ∧ _))

end Range

structure ReadPlan where
  headerObject : Range
  slotsObject : Range
  slotBaseRaf : Nat
  rafSize : Nat
  deriving DecidableEq

/-- The outer `none` is an overflow, the inner one a size that is not that of
a container. -/
def planRead (objectSize off len : Nat) : Option (Option ReadPlan) :=
  match containerChunkCount objectSize with
  | none => some none
  | some chunks => do
      let rafSize ← sub objectSize hfebHeaderLen
      let headerEnd ← add hfebHeaderLen rafHeaderLen
      let headerObject : Range := ⟨hfebHeaderLen, headerEnd⟩
      let first := off / rafChunkSize
      let stop := saturatingAdd off len
      if len = 0 ∨ chunks = 0 ∨ chunks ≤ first then
        some (some
          { headerObject
            slotsObject := ⟨0, 0⟩
            slotBaseRaf := rafHeaderLen
            rafSize })
      else do
        let before ← sub stop 1
        let lastChunk ← sub chunks 1
        let last := min (before / rafChunkSize) lastChunk
        let firstOffset ← mul first rafChunkRecord
        let slotBaseRaf ← add rafHeaderLen firstOffset
        let slotCount ← add last 1
        let lastOffset ← mul slotCount rafChunkRecord
        let slotEndRaf ← add rafHeaderLen lastOffset
        let slotStart ← add hfebHeaderLen slotBaseRaf
        let slotStop ← add hfebHeaderLen slotEndRaf
        some (some
          { headerObject
            slotsObject := ⟨slotStart, slotStop⟩
            slotBaseRaf
            rafSize })

/-! ## The window that a read decrypts from -/

/-- The header and the fetched slots; the offsets are those of the
container. -/
structure ReadIo where
  rafSize : Nat
  header : Bytes
  slotBase : Nat
  slots : Bytes
  deriving DecidableEq

inductive IoError where
  | invalidInput
  | unexpectedEof
  deriving DecidableEq

/-- `read_at`, for a buffer of this length; `none` is an overflow. -/
def ReadIo.readAt (io : ReadIo) (length offset : Nat) :
    Option (Except IoError Bytes) :=
  match add offset length with
  | none => some (.error .invalidInput)
  | some stop =>
      if stop ≤ io.header.length then
        some (.ok (slice io.header offset length))
      else do
        let slotsEnd ← add io.slotBase io.slots.length
        if io.slotBase ≤ offset ∧ stop ≤ slotsEnd then do
          let start ← sub offset io.slotBase
          some (.ok (slice io.slots start length))
        else some (.error .unexpectedEof)

/-- The bytes of a range of the object, as `fetch_object_range` returns
them. -/
def objectRange (object : Bytes) (range : Range) : Bytes :=
  slice object range.start (range.stop - range.start)

/-- What `encrypted_read` builds; an empty range of slots is not fetched. -/
def ReadPlan.readIo (plan : ReadPlan) (object : Bytes) : ReadIo :=
  { rafSize := plan.rafSize
    header := objectRange object plan.headerObject
    slotBase := plan.slotBaseRaf
    slots :=
      if plan.slotsObject.start < plan.slotsObject.stop then
        objectRange object plan.slotsObject
      else [] }

/-! ## Container sizes -/

theorem containerChunkCount_eq_some {size chunks : Nat} :
    containerChunkCount size = some chunks ↔
      containerHeaderLen + chunks * rafChunkRecord = size := by
  have positive : 0 < rafChunkRecord := by decide
  simp only [containerChunkCount, sub, Option.bind_eq_bind]
  constructor
  · intro counted
    split at counted <;> rename_i enough
    · simp only [Option.bind_some, Option.ite_none_right_eq_some,
        Option.some.injEq] at counted
      obtain ⟨whole, rfl⟩ := counted
      rw [Nat.div_mul_cancel (Nat.dvd_of_mod_eq_zero whole)]
      omega
    · cases counted
  · rintro rfl
    rw [if_pos (Nat.le_add_right _ _), Option.bind_some,
      Nat.add_sub_cancel_left, Nat.mul_mod_left, if_pos rfl,
      Nat.mul_div_cancel _ positive]

theorem ciphertextSize_eq_some {plaintext size : Nat} :
    ciphertextSize plaintext = some size ↔
      containerHeaderLen +
          divCeil plaintext rafChunkSize * rafChunkRecord = size ∧
        size ≤ maxValue := by
  simp only [ciphertextSize, Option.bind_eq_bind, Option.bind_eq_some_iff,
    mul_eq_some, add_eq_some]
  constructor
  · rintro ⟨slots, ⟨_, rfl⟩, fits, rfl⟩
    exact ⟨rfl, fits⟩
  · rintro ⟨rfl, fits⟩
    exact ⟨_, ⟨by omega, rfl⟩, fits, rfl⟩

/-- The sizes that count chunks are those of the containers. -/
theorem ciphertextSize_of_count {size chunks : Nat} (fits : size ≤ maxValue)
    (counted : containerChunkCount size = some chunks) :
    chunks * rafChunkSize ≤ maxValue ∧
      ciphertextSize (chunks * rafChunkSize) = some size := by
  have total := containerChunkCount_eq_some.mp counted
  have smaller : chunks * rafChunkSize ≤ chunks * rafChunkRecord :=
    Nat.mul_le_mul_left _ (by decide)
  refine ⟨by omega, ciphertextSize_eq_some.mpr ⟨?_, fits⟩⟩
  rw [divCeil_mul (by decide)]
  exact total

/-! ## The plan of a read -/

/-- The plaintext of a chunk. -/
def chunkRange (chunk : Nat) : Range :=
  ⟨chunk * rafChunkSize, (chunk + 1) * rafChunkSize⟩

/-- The slot of a chunk in the object. -/
def slotRange (chunk : Nat) : Range :=
  ⟨containerHeaderLen + chunk * rafChunkRecord,
    containerHeaderLen + (chunk + 1) * rafChunkRecord⟩

section

variable {size chunks off len : Nat}

/-- A read that touches no chunk. -/
theorem planRead_of_untouched
    (counted : containerChunkCount size = some chunks)
    (untouched : len = 0 ∨ chunks = 0 ∨ chunks ≤ off / rafChunkSize) :
    planRead size off len = some (some
      { headerObject := ⟨hfebHeaderLen, containerHeaderLen⟩
        slotsObject := ⟨0, 0⟩
        slotBaseRaf := rafHeaderLen
        rafSize := size - hfebHeaderLen }) := by
  have total := containerChunkCount_eq_some.mp counted
  have enough : hfebHeaderLen ≤ size := by
    rw [← total]
    exact Nat.le_trans (by decide) (Nat.le_add_right _ _)
  have header : add hfebHeaderLen rafHeaderLen = some containerHeaderLen := by
    decide
  simp [planRead, counted, sub_eq enough, header, untouched]

/-- The last chunk that a read touches. -/
def lastChunk (chunks off len : Nat) : Nat :=
  min ((saturatingAdd off len - 1) / rafChunkSize) (chunks - 1)

theorem lastChunk_lt (nonzero : chunks ≠ 0) :
    lastChunk chunks off len < chunks := by
  have bound : lastChunk chunks off len ≤ chunks - 1 := Nat.min_le_right _ _
  omega

theorem first_le_lastChunk (fits : chunks * rafChunkSize < maxValue)
    (nonempty : len ≠ 0) (inside : off / rafChunkSize < chunks) :
    off / rafChunkSize ≤ lastChunk chunks off len := by
  have positive : 0 < rafChunkSize := by decide
  have below : off < chunks * rafChunkSize :=
    (Nat.div_lt_iff_lt_mul positive).mp inside
  have start : off ≤ saturatingAdd off len - 1 := by
    rw [saturatingAdd]
    omega
  exact Nat.le_min.mpr
    ⟨Nat.div_le_div_right start, Nat.le_sub_one_of_lt inside⟩

theorem planRead_of_touched (fits : size ≤ maxValue)
    (counted : containerChunkCount size = some chunks) (nonempty : len ≠ 0)
    (inside : off / rafChunkSize < chunks) :
    planRead size off len = some (some
      { headerObject := ⟨hfebHeaderLen, containerHeaderLen⟩
        slotsObject :=
          ⟨containerHeaderLen + off / rafChunkSize * rafChunkRecord,
            containerHeaderLen +
              (lastChunk chunks off len + 1) * rafChunkRecord⟩
        slotBaseRaf := rafHeaderLen + off / rafChunkSize * rafChunkRecord
        rafSize := size - hfebHeaderLen }) := by
  have total := containerChunkCount_eq_some.mp counted
  have last : lastChunk chunks off len + 1 ≤ chunks :=
    lastChunk_lt (Nat.ne_zero_of_lt inside)
  have firstSlots : off / rafChunkSize * rafChunkRecord ≤
      chunks * rafChunkRecord := Nat.mul_le_mul_right _ (Nat.le_of_lt inside)
  have lastSlots : (lastChunk chunks off len + 1) * rafChunkRecord ≤
      chunks * rafChunkRecord := Nat.mul_le_mul_right _ last
  have count : chunks ≤ chunks * rafChunkRecord :=
    Nat.le_mul_of_pos_right _ (by decide)
  have header : add hfebHeaderLen rafHeaderLen = some containerHeaderLen := by
    decide
  have headers : hfebHeaderLen + rafHeaderLen = containerHeaderLen := rfl
  have positive : 1 ≤ saturatingAdd off len := by
    have one : 1 ≤ maxValue := by decide
    rw [saturatingAdd]
    omega
  have one : 1 ≤ chunks := Nat.le_trans (Nat.le_add_left 1 _) inside
  have touched : ¬ (len = 0 ∨ chunks = 0 ∨ chunks ≤ off / rafChunkSize) := by
    omega
  simp only [planRead, counted, Option.bind_eq_bind]
  rw [sub_eq (by omega), Option.bind_some, header, Option.bind_some,
    if_neg touched, sub_eq positive, Option.bind_some, sub_eq (by omega),
    Option.bind_some, mul_eq (by omega), Option.bind_some,
    add_eq (by omega), Option.bind_some]
  change (add (lastChunk chunks off len) 1).bind _ = _
  rw [add_eq (by omega), Option.bind_some, mul_eq (by omega),
    Option.bind_some, add_eq (by omega), Option.bind_some,
    add_eq (by omega), Option.bind_some, add_eq (by omega),
    Option.bind_some]
  simp only [← Nat.add_assoc, headers]

/-- The chunks that a read touches are those from its first to its last. -/
theorem meets_iff (fits : chunks * rafChunkSize < maxValue) {chunk : Nat}
    (inside : chunk < chunks) :
    (chunkRange chunk).Meets ⟨off, off + len⟩ ↔
      len ≠ 0 ∧ off / rafChunkSize ≤ chunk ∧
        chunk ≤ lastChunk chunks off len := by
  have positive : 0 < rafChunkSize := by decide
  have scaled : chunk * rafChunkSize + rafChunkSize ≤ chunks * rafChunkSize := by
    rw [← Nat.succ_mul]
    exact Nat.mul_le_mul_right _ inside
  have first : off / rafChunkSize ≤ chunk ↔ off < (chunk + 1) * rafChunkSize := by
    rw [← Nat.lt_succ_iff, Nat.div_lt_iff_lt_mul positive]
  have last : chunk ≤ lastChunk chunks off len ↔
      chunk * rafChunkSize ≤ saturatingAdd off len - 1 := by
    rw [lastChunk, Nat.le_min, Nat.le_div_iff_mul_le positive]
    exact and_iff_left (Nat.le_sub_one_of_lt inside)
  have chunkEnd : (chunk + 1) * rafChunkSize =
      chunk * rafChunkSize + rafChunkSize := Nat.succ_mul _ _
  rw [first, last, chunkEnd]
  simp only [Range.Meets, Range.Contains, chunkRange, saturatingAdd, chunkEnd]
  constructor
  · rintro ⟨position, ⟨above, below⟩, after, before⟩
    omega
  · rintro ⟨nonempty, beforeEnd, afterStart⟩
    refine ⟨max off (chunk * rafChunkSize), ?_⟩
    omega

end

/-- The slots from one chunk to another one lie without a gap. -/
theorem contains_slots {first last position : Nat} :
    (Range.mk (containerHeaderLen + first * rafChunkRecord)
        (containerHeaderLen + (last + 1) * rafChunkRecord)).Contains position ↔
      ∃ chunk, first ≤ chunk ∧ chunk ≤ last ∧
        (slotRange chunk).Contains position := by
  have positive : 0 < rafChunkRecord := by decide
  constructor
  · rintro ⟨above, below⟩
    dsimp only at above below
    have start : (position - containerHeaderLen) / rafChunkRecord *
        rafChunkRecord ≤ position - containerHeaderLen :=
      Nat.div_mul_le_self _ _
    have stop :=
      @Nat.lt_div_mul_add (position - containerHeaderLen) _ positive
    refine ⟨(position - containerHeaderLen) / rafChunkRecord, ?_, ?_, ?_, ?_⟩
    · rw [Nat.le_div_iff_mul_le positive]
      omega
    · rw [← Nat.lt_add_one_iff, Nat.div_lt_iff_lt_mul positive]
      omega
    · dsimp only [slotRange]
      omega
    · dsimp only [slotRange]
      rw [Nat.succ_mul]
      omega
  · rintro ⟨chunk, afterFirst, beforeLast, above, below⟩
    dsimp only [slotRange] at above below
    have lower := Nat.mul_le_mul_right rafChunkRecord afterFirst
    have upper := Nat.mul_le_mul_right rafChunkRecord
      (Nat.add_le_add_right beforeLast 1)
    constructor
    · dsimp only
      omega
    · dsimp only
      omega

/-! ## The reads of the decryption -/

/-- Where a plan finds the header and the slots. -/
structure ReadPlan.Fetches (plan : ReadPlan) (size : Nat) : Prop where
  header : plan.headerObject = ⟨hfebHeaderLen, containerHeaderLen⟩
  headerFits : containerHeaderLen ≤ size
  slots : plan.slotsObject = ⟨0, 0⟩ ∧ plan.slotBaseRaf = rafHeaderLen ∨
    plan.slotsObject.start = hfebHeaderLen + plan.slotBaseRaf ∧
      plan.slotsObject.start < plan.slotsObject.stop ∧
      plan.slotsObject.stop ≤ size

/-- The object bytes of a read of the container. -/
def readRange (length offset : Nat) : Range :=
  ⟨hfebHeaderLen + offset, hfebHeaderLen + (offset + length)⟩

section

variable {io : ReadIo} {plan : ReadPlan} {object : Bytes}
  {size length offset : Nat}

theorem slice_slice {content : Bytes} {start count begin : Nat}
    (inside : begin + length ≤ count) :
    slice (slice content start count) begin length =
      slice content (start + begin) length := by
  simp only [slice]
  rw [List.drop_take, List.take_take, List.drop_drop]
  congr 1
  omega

theorem length_objectRange {range : Range}
    (bound : range.stop ≤ object.length) :
    (objectRange object range).length = range.stop - range.start := by
  simp only [objectRange, slice, List.length_take, List.length_drop]
  omega

theorem ReadIo.readAt_of_fits (stop : offset + length ≤ maxValue)
    (slotsEnd : io.slotBase + io.slots.length ≤ maxValue) :
    io.readAt length offset =
      if offset + length ≤ io.header.length then
        some (.ok (slice io.header offset length))
      else if io.slotBase ≤ offset ∧
          offset + length ≤ io.slotBase + io.slots.length then
        some (.ok (slice io.slots (offset - io.slotBase) length))
      else some (.error .unexpectedEof) := by
  simp only [ReadIo.readAt, add_eq stop, add_eq slotsEnd,
    Option.bind_eq_bind, Option.bind_some]
  split
  · rfl
  split <;> rename_i inside
  · rw [sub_eq inside.1, Option.bind_some]
  · rfl

theorem ReadPlan.Fetches.length_header (fetches : plan.Fetches size)
    (whole : object.length = size) :
    (plan.readIo object).header.length = rafHeaderLen := by
  have bound : plan.headerObject.stop ≤ object.length := by
    rw [fetches.header, whole]
    exact fetches.headerFits
  change (objectRange object plan.headerObject).length = _
  rw [length_objectRange bound, fetches.header]
  rfl

/-- The fetched slots, in the coordinates of the object. -/
theorem ReadPlan.Fetches.slots_eq (fetches : plan.Fetches size)
    (whole : object.length = size) :
    (plan.readIo object).slots = [] ∧ plan.slotsObject = ⟨0, 0⟩ ∧
        plan.slotBaseRaf = rafHeaderLen ∨
      (plan.readIo object).slots = objectRange object plan.slotsObject ∧
        plan.slotsObject = ⟨hfebHeaderLen + plan.slotBaseRaf,
          hfebHeaderLen + (plan.slotBaseRaf +
            (plan.readIo object).slots.length)⟩ ∧
        hfebHeaderLen + (plan.slotBaseRaf +
          (plan.readIo object).slots.length) ≤ size := by
  rcases fetches.slots with ⟨empty, base⟩ | ⟨start, nonempty, bound⟩
  · refine Or.inl ⟨?_, empty, base⟩
    simp [ReadPlan.readIo, empty]
  · have slots : (plan.readIo object).slots =
        objectRange object plan.slotsObject := by
      simp [ReadPlan.readIo, nonempty]
    have count : (plan.readIo object).slots.length =
        plan.slotsObject.stop - plan.slotsObject.start := by
      rw [slots, length_objectRange (whole ▸ bound)]
    refine Or.inr ⟨slots, ?_, by omega⟩
    rw [count, ← start]
    cases shape : plan.slotsObject with
    | mk first last =>
        rw [shape] at nonempty start
        dsimp only at nonempty start ⊢
        rw [Range.mk.injEq]
        omega

theorem objectRange_readRange :
    objectRange object (readRange length offset) =
      slice object (hfebHeaderLen + offset) length := by
  simp only [objectRange, readRange]
  congr 1
  omega

/-- A read of the container succeeds within the header or within the fetched
slots, and then with the bytes of the object. -/
theorem ReadPlan.Fetches.readAt (fetches : plan.Fetches size)
    (fits : size ≤ maxValue) (whole : object.length = size)
    (nonempty : 0 < length) :
    ((readRange length offset).Within plan.headerObject ∨
        (readRange length offset).Within plan.slotsObject →
      (plan.readIo object).readAt length offset =
        some (.ok (objectRange object (readRange length offset)))) ∧
    (¬ (readRange length offset).Within plan.headerObject →
      ¬ (readRange length offset).Within plan.slotsObject →
      ∃ error, (plan.readIo object).readAt length offset =
        some (.error error)) := by
  have headerLength := fetches.length_header whole
  have headerFits := fetches.headerFits
  have sizes : containerHeaderLen = hfebHeaderLen + rafHeaderLen := rfl
  have header : (readRange length offset).Within plan.headerObject ↔
      offset + length ≤ rafHeaderLen := by
    simp only [fetches.header, Range.Within, readRange]
    omega
  have headerBytes : offset + length ≤ rafHeaderLen →
      slice (plan.readIo object).header offset length =
        slice object (hfebHeaderLen + offset) length := by
    intro inside
    change slice (objectRange object plan.headerObject) offset length = _
    rw [fetches.header]
    apply slice_slice
    dsimp only
    omega
  have base : (plan.readIo object).slotBase = plan.slotBaseRaf := rfl
  have slots : (plan.readIo object).slotBase +
        (plan.readIo object).slots.length ≤ maxValue ∧
      ((readRange length offset).Within plan.slotsObject ↔
        plan.slotBaseRaf ≤ offset ∧ offset + length ≤
          plan.slotBaseRaf + (plan.readIo object).slots.length) ∧
      ((readRange length offset).Within plan.slotsObject →
        slice (plan.readIo object).slots (offset - plan.slotBaseRaf) length =
          slice object (hfebHeaderLen + offset) length) := by
    rcases fetches.slots_eq whole with ⟨none, empty, first⟩ |
      ⟨bytes, shape, bound⟩
    · simp only [base, none, empty, first, Range.Within, readRange,
        List.length_nil]
      refine ⟨by omega, by omega, fun inside => ?_⟩
      omega
    · have within : (readRange length offset).Within plan.slotsObject ↔
          plan.slotBaseRaf ≤ offset ∧ offset + length ≤
            plan.slotBaseRaf + (plan.readIo object).slots.length := by
        rw [shape]
        simp only [Range.Within, readRange]
        omega
      refine ⟨by omega, within, fun inside => ?_⟩
      obtain ⟨after, before⟩ := within.mp inside
      rw [bytes, objectRange, slice_slice]
      · rw [shape]
        dsimp only
        congr 1
        omega
      · rw [shape]
        dsimp only
        omega
  obtain ⟨slotsFit, within, slotBytes⟩ := slots
  rw [objectRange_readRange]
  by_cases stop : offset + length ≤ maxValue
  · rw [ReadIo.readAt_of_fits stop slotsFit, headerLength, base]
    constructor
    · rintro (inHeader | inSlots)
      · have inside := header.mp inHeader
        rw [if_pos inside, headerBytes inside]
      · by_cases inside : offset + length ≤ rafHeaderLen
        · rw [if_pos inside, headerBytes inside]
        · rw [if_neg inside, if_pos (within.mp inSlots), slotBytes inSlots]
    · intro notHeader notSlots
      rw [if_neg (mt header.mpr notHeader), if_neg (mt within.mpr notSlots)]
      exact ⟨_, rfl⟩
  · have overflow : add offset length = none := if_neg stop
    constructor
    · rintro (inHeader | inSlots)
      · have inside := header.mp inHeader
        omega
      · have inside := within.mp inSlots
        omega
    · intro _ _
      exact ⟨.invalidInput, by simp only [ReadIo.readAt, overflow]⟩

end

/-- The plan of a container covers the chunks that the read touches. -/
theorem planRead_fetches {size chunks : Nat} (fits : size ≤ maxValue)
    (counted : containerChunkCount size = some chunks) (off len : Nat) :
    ∃ plan, planRead size off len = some (some plan) ∧ plan.Fetches size ∧
      ∀ position, plan.slotsObject.Contains position ↔
        ∃ chunk, chunk < chunks ∧
          (chunkRange chunk).Meets ⟨off, off + len⟩ ∧
          (slotRange chunk).Contains position := by
  have total := containerChunkCount_eq_some.mp counted
  have headerFits : containerHeaderLen ≤ size := by omega
  have room : chunks * rafChunkSize < maxValue := by
    have smaller : chunks * rafChunkSize ≤ chunks * rafChunkRecord :=
      Nat.mul_le_mul_left _ (by decide)
    have positive : 0 < containerHeaderLen := by decide
    omega
  by_cases untouched : len = 0 ∨ chunks = 0 ∨ chunks ≤ off / rafChunkSize
  · refine ⟨_, planRead_of_untouched counted untouched,
      ⟨rfl, headerFits, Or.inl ⟨rfl, rfl⟩⟩, ?_⟩
    intro position
    constructor
    · rintro ⟨_, below⟩
      exact absurd below (Nat.not_lt_zero _)
    · rintro ⟨chunk, inside, meets, _⟩
      obtain ⟨nonempty, first, _⟩ := (meets_iff room inside).mp meets
      exact absurd untouched (by omega)
  · have nonempty : len ≠ 0 := fun zero => untouched (Or.inl zero)
    have inside : off / rafChunkSize < chunks :=
      Nat.lt_of_not_le fun past => untouched (Or.inr (Or.inr past))
    have last : lastChunk chunks off len < chunks :=
      lastChunk_lt (Nat.ne_zero_of_lt inside)
    have ordered := first_le_lastChunk room nonempty inside
    have slots : (lastChunk chunks off len + 1) * rafChunkRecord ≤
        chunks * rafChunkRecord := Nat.mul_le_mul_right _ last
    have some : off / rafChunkSize * rafChunkRecord <
        (lastChunk chunks off len + 1) * rafChunkRecord :=
      Nat.mul_lt_mul_of_pos_right (Nat.lt_add_one_of_le ordered) (by decide)
    refine ⟨_, planRead_of_touched fits counted nonempty inside,
      ⟨rfl, headerFits, Or.inr ⟨?_, ?_, ?_⟩⟩, ?_⟩
    · exact Nat.add_assoc _ _ _
    · exact Nat.add_lt_add_left some _
    · dsimp only
      omega
    · intro position
      dsimp only
      rw [contains_slots]
      constructor
      · rintro ⟨chunk, first, beforeLast, contains⟩
        have below : chunk < chunks := Nat.lt_of_le_of_lt beforeLast last
        exact ⟨chunk, below,
          (meets_iff room below).mpr ⟨nonempty, first, beforeLast⟩, contains⟩
      · rintro ⟨chunk, below, meets, contains⟩
        obtain ⟨_, first, beforeLast⟩ := (meets_iff room below).mp meets
        exact ⟨chunk, first, beforeLast, contains⟩

/-- A container of any plaintext has a plan for every read: its slots are those
of the chunks that the read touches, and the decryption reads the bytes of the
object from the header and these slots, and nothing else.  Every other size
has no plan. -/
theorem planRead_exact :
    (∀ plaintext size, ciphertextSize plaintext = some size →
      ∀ off len, ∃ plan, planRead size off len = some (some plan) ∧
        plan.slotsObject.Within ⟨0, size⟩ ∧
        (∀ position, plan.slotsObject.Contains position ↔
          ∃ chunk, chunk < divCeil plaintext rafChunkSize ∧
            (chunkRange chunk).Meets ⟨off, off + len⟩ ∧
            (slotRange chunk).Contains position) ∧
        ∀ object : Bytes, object.length = size →
          ∀ length offset, 0 < length →
            ((readRange length offset).Within plan.headerObject ∨
                (readRange length offset).Within plan.slotsObject →
              (plan.readIo object).readAt length offset =
                some (.ok (objectRange object (readRange length offset)))) ∧
            (¬ (readRange length offset).Within plan.headerObject →
              ¬ (readRange length offset).Within plan.slotsObject →
              ∃ error, (plan.readIo object).readAt length offset =
                some (.error error))) ∧
    ∀ size, size ≤ maxValue → ∀ off len,
      planRead size off len = some none ↔
        ∀ plaintext, plaintext ≤ maxValue →
          ciphertextSize plaintext ≠ some size := by
  constructor
  · intro plaintext size isSize off len
    obtain ⟨total, fits⟩ := ciphertextSize_eq_some.mp isSize
    have counted := containerChunkCount_eq_some.mpr total
    obtain ⟨plan, planned, fetches, slots⟩ :=
      planRead_fetches fits counted off len
    refine ⟨plan, planned, ⟨Nat.zero_le _, ?_⟩, slots, ?_⟩
    · rcases fetches.slots with ⟨empty, _⟩ | ⟨_, _, bound⟩
      · rw [empty]
        exact Nat.zero_le _
      · exact bound
    · intro object whole length offset nonempty
      exact fetches.readAt fits whole nonempty
  · intro size fits off len
    constructor
    · intro unplanned plaintext _ isSize
      obtain ⟨total, _⟩ := ciphertextSize_eq_some.mp isSize
      obtain ⟨plan, planned, _⟩ := planRead_fetches fits
        (containerChunkCount_eq_some.mpr total) off len
      rw [planned] at unplanned
      cases unplanned
    · intro noPlaintext
      cases counted : containerChunkCount size with
      | none => simp only [planRead, counted]
      | some chunks =>
          obtain ⟨small, isSize⟩ := ciphertextSize_of_count fits counted
          exact absurd isSize (noPlaintext _ small)

/-- A read across the first two of four chunks. -/
theorem planRead_exact_twoChunks : ∃ plan,
    planRead 262342 65500 200 = some (some plan) ∧
      plan.slotsObject = ⟨70, 131206⟩ ∧
      (plan.readIo (List.replicate 262342 7)).readAt 3 64 =
        some (.ok [7, 7, 7]) ∧
      planRead 262343 65500 200 = some none := by
  obtain ⟨plan, planned, _, _, reads⟩ :=
    planRead_exact.1 200000 262342 (by decide) 65500 200
  have shape : some (some plan) = some (some
      { headerObject := ⟨6, 70⟩
        slotsObject := ⟨70, 131206⟩
        slotBaseRaf := 64
        rafSize := 262336 }) := planned.symm.trans (by decide)
  obtain rfl := Option.some.inj (Option.some.inj shape)
  refine ⟨_, planned, rfl, ?_, by decide⟩
  rw [(reads (List.replicate 262342 7) List.length_replicate 3 64
    (by decide)).1 (Or.inr (by decide))]
  simp only [objectRange, slice, List.drop_replicate, List.take_replicate]
  rfl

end HfMount.Encryption.Content
