import Mathlib.Data.Nat.Basic
import Mathlib.Algebra.Order.Ring.Nat
import Mathlib.Algebra.BigOperators.Group.List.Basic
import Mathlib.Tactic.Ring

/-!
# Block codes of two widths

A bit string of length `count` is a number below `2 ^ count`, the first bit
being the lowest.  A block code cuts it into blocks that are `narrow` or
`narrow + 1` bits wide, where the `narrow` low bits of a block decide which.
`split` cuts as long as more than `narrow` bits remain, and `pack` puts blocks
together again.
-/

namespace HfMount.BlockCode

structure Code where
  narrow : Nat
  positive : 0 < narrow
  /-- The low bits of a block that has one more bit. -/
  wide : Nat → Bool

namespace Code

variable (code : Code)

/-- The width of the first block of a bit string. -/
def width (value : Nat) : Nat :=
  if code.wide (value % 2 ^ code.narrow) then code.narrow + 1 else code.narrow

def first (value : Nat) : Nat := value % 2 ^ code.width value

/-- The number of bits of a list of blocks. -/
def bits (blocks : List Nat) : Nat := (blocks.map code.width).sum

def pack : List Nat → Nat
  | [] => 0
  | block :: blocks => block + 2 ^ code.width block * pack blocks

/-- `block` has no bits beyond its width. -/
def Fits (block : Nat) : Prop := block < 2 ^ code.width block

theorem width_pos (value : Nat) : 0 < code.width value := by
  have := code.positive
  unfold width
  split <;> omega

theorem narrow_le_width (value : Nat) : code.narrow ≤ code.width value := by
  unfold width
  split <;> omega

theorem width_le (value : Nat) : code.width value ≤ code.narrow + 1 := by
  unfold width
  split <;> omega

/-- The blocks of a bit string, and what is left of it with its length. -/
def split (value count : Nat) : List Nat × Nat × Nat :=
  if code.narrow < count then
    let rest := split (value / 2 ^ code.width value) (count - code.width value)
    (code.first value :: rest.1, rest.2)
  else ([], value, count)
termination_by count
decreasing_by
  have := code.width_pos value
  omega

/-! ## Widths -/

@[simp] theorem bits_nil : code.bits [] = 0 := rfl

@[simp] theorem bits_cons (block : Nat) (blocks : List Nat) :
    code.bits (block :: blocks) = code.width block + code.bits blocks := by
  simp [bits]

@[simp] theorem bits_append (left right : List Nat) :
    code.bits (left ++ right) = code.bits left + code.bits right := by
  simp [bits]

theorem width_congr {left right : Nat}
    (same : left % 2 ^ code.narrow = right % 2 ^ code.narrow) :
    code.width left = code.width right := by
  rw [width, width, same]

/-- Bits above the narrow width do not matter for the width. -/
theorem width_add {amount : Nat} (above : code.narrow ≤ amount)
    (low high : Nat) : code.width (low + 2 ^ amount * high) = code.width low := by
  apply code.width_congr
  obtain ⟨extra, rfl⟩ := Nat.exists_eq_add_of_le above
  rw [Nat.pow_add, Nat.mul_assoc, Nat.add_mul_mod_self_left]

theorem width_first (value : Nat) :
    code.width (code.first value) = code.width value := by
  apply code.width_congr
  rw [first, Nat.mod_mod_of_dvd]
  exact pow_dvd_pow 2 (code.narrow_le_width value)

theorem fits_first (value : Nat) : code.Fits (code.first value) := by
  rw [Fits, width_first, first]
  exact Nat.mod_lt _ (Nat.two_pow_pos _)

/-! ## Packing -/

@[simp] theorem pack_nil : code.pack [] = 0 := rfl

theorem pack_append (left right : List Nat) :
    code.pack (left ++ right) =
      code.pack left + 2 ^ code.bits left * code.pack right := by
  induction left with
  | nil => simp
  | cons block blocks ih =>
      rw [List.cons_append, pack, pack, ih, bits_cons, Nat.pow_add]
      ring

theorem pack_singleton (block : Nat) : code.pack [block] = block := by
  simp [pack]

/-! ## Splitting -/

theorem split_of_le {value count : Nat} (short : count ≤ code.narrow) :
    code.split value count = ([], value, count) := by
  rw [split, if_neg (Nat.not_lt.mpr short)]

theorem split_of_lt {value count : Nat} (long : code.narrow < count) :
    code.split value count =
      (code.first value ::
          (code.split (value / 2 ^ code.width value)
            (count - code.width value)).1,
        (code.split (value / 2 ^ code.width value)
          (count - code.width value)).2) := by
  rw [split, if_pos long]

/-- A block that is followed by enough bits is cut off. -/
theorem split_block {block : Nat} (fits : code.Fits block) (value count : Nat)
    (long : code.narrow < code.width block + count) :
    code.split (block + 2 ^ code.width block * value)
        (code.width block + count) =
      (block :: (code.split value count).1, (code.split value count).2) := by
  have width := code.width_add (code.narrow_le_width block) block value
  have head : code.first (block + 2 ^ code.width block * value) = block := by
    rw [first, width, Nat.add_mul_mod_self_left]
    exact Nat.mod_eq_of_lt fits
  have tail : (block + 2 ^ code.width block * value) /
      2 ^ code.width block = value := by
    rw [Nat.add_mul_div_left _ _ (Nat.two_pow_pos _),
      Nat.div_eq_of_lt fits, Nat.zero_add]
  rw [code.split_of_lt long, width, head, tail, Nat.add_sub_cancel_left]

/-- Blocks that are followed by at least one bit are cut off. -/
theorem split_pack {blocks : List Nat}
    (fit : ∀ block ∈ blocks, code.Fits block) (value : Nat) {count : Nat}
    (more : 0 < count) :
    code.split (code.pack blocks + 2 ^ code.bits blocks * value)
        (code.bits blocks + count) =
      (blocks ++ (code.split value count).1, (code.split value count).2) := by
  induction blocks with
  | nil => simp
  | cons block blocks ih =>
      have long : code.narrow <
          code.width block + (code.bits blocks + count) := by
        have := code.narrow_le_width block
        omega
      have rest := ih fun other member =>
        fit other (List.mem_cons_of_mem _ member)
      have value_eq : code.pack (block :: blocks) +
          2 ^ code.bits (block :: blocks) * value =
            block + 2 ^ code.width block *
              (code.pack blocks + 2 ^ code.bits blocks * value) := by
        rw [pack, bits_cons, Nat.pow_add]
        ring
      rw [value_eq, bits_cons, Nat.add_assoc,
        code.split_block (fit block List.mem_cons_self) _ _ long, rest]
      rfl

/-- What `split` returns: blocks that pack, with the rest, to the bit string. -/
structure Cut (value count : Nat) (blocks : List Nat) (rest left : Nat) :
    Prop where
  value : value = code.pack blocks + 2 ^ code.bits blocks * rest
  count : count = code.bits blocks + left
  short : left ≤ code.narrow
  small : rest < 2 ^ left
  fit : ∀ block ∈ blocks, code.Fits block

theorem cut_split {value count : Nat} (small : value < 2 ^ count) :
    code.Cut value count (code.split value count).1
      (code.split value count).2.1 (code.split value count).2.2 := by
  induction count using Nat.strong_induction_on generalizing value with
  | _ count ih =>
      by_cases long : code.narrow < count
      · have positive := code.width_pos value
        have enough : code.width value ≤ count :=
          Nat.le_trans (code.width_le value) long
        have smallRest : value / 2 ^ code.width value <
            2 ^ (count - code.width value) := by
          rw [Nat.div_lt_iff_lt_mul (Nat.two_pow_pos _), ← Nat.pow_add,
            Nat.sub_add_cancel enough]
          exact small
        have rest := ih (count - code.width value) (by omega) smallRest
        rw [code.split_of_lt long]
        refine ⟨?_, ?_, rest.short, rest.small, ?_⟩
        · have whole := Nat.mod_add_div value (2 ^ code.width value)
          rw [pack, bits_cons, width_first, Nat.pow_add, first]
          conv_lhs => rw [← whole, rest.value]
          ring
        · have total := rest.count
          rw [bits_cons, width_first, Nat.add_assoc, ← total,
            Nat.add_sub_cancel' enough]
        · intro block member
          rcases List.mem_cons.mp member with rfl | later
          · exact code.fits_first value
          · exact rest.fit block later
      · rw [code.split_of_le (Nat.not_lt.mp long)]
        exact ⟨by simp, by simp, Nat.not_lt.mp long, small, by simp⟩

/-- A bit string of which more than `narrow` bits are known can be split at
once; the bits that follow come after what is left of it. -/
theorem split_known {known amount : Nat} (long : code.narrow < amount)
    (more count : Nat) :
    code.split (known + 2 ^ amount * more) (amount + count) =
      (code.first known ::
          (code.split (known / 2 ^ code.width known +
            2 ^ (amount - code.width known) * more)
            (amount - code.width known + count)).1,
        (code.split (known / 2 ^ code.width known +
          2 ^ (amount - code.width known) * more)
          (amount - code.width known + count)).2) := by
  have width := code.width_add (Nat.le_of_lt long) known more
  have enough : code.width known ≤ amount :=
    Nat.le_trans (code.width_le known) long
  have power : 2 ^ amount =
      2 ^ code.width known * 2 ^ (amount - code.width known) := by
    rw [← Nat.pow_add, Nat.add_sub_cancel' enough]
  have head : code.first (known + 2 ^ amount * more) = code.first known := by
    rw [first, first, width, power, Nat.mul_assoc, Nat.add_mul_mod_self_left]
  have tail : (known + 2 ^ amount * more) / 2 ^ code.width known =
      known / 2 ^ code.width known +
        2 ^ (amount - code.width known) * more := by
    rw [power, Nat.mul_assoc, Nat.add_mul_div_left _ _ (Nat.two_pow_pos _)]
  have length : amount + count - code.width known =
      amount - code.width known + count := by omega
  rw [code.split_of_lt (Nat.lt_of_lt_of_le long (Nat.le_add_right _ _)), width,
    head, tail, length]

end Code

end HfMount.BlockCode
