import Mathlib.Data.Nat.Basic
import Mathlib.Data.Nat.Bitwise

/-!
# Checked 32-bit arithmetic

Operations on `u32` values, as natural numbers, that stop where the machine
operation would overflow: `none` stands for the overflow.  A shift overflows
when its amount is at least the width of the word; bits that a left shift
moves out of the word are lost without an overflow.
-/

namespace HfMount.CheckedWord

def word : Nat := 2 ^ 32

def add (left right : Nat) : Option Nat :=
  if left + right < word then some (left + right) else none

def sub (left right : Nat) : Option Nat :=
  if right ≤ left then some (left - right) else none

def mul (left right : Nat) : Option Nat :=
  if left * right < word then some (left * right) else none

def shl (value amount : Nat) : Option Nat :=
  if amount < 32 then some ((value <<< amount) % word) else none

def shr (value amount : Nat) : Option Nat :=
  if amount < 32 then some (value >>> amount) else none

theorem add_eq {left right : Nat} (fits : left + right < word) :
    add left right = some (left + right) := if_pos fits

theorem sub_eq {left right : Nat} (fits : right ≤ left) :
    sub left right = some (left - right) := if_pos fits

theorem mul_eq {left right : Nat} (fits : left * right < word) :
    mul left right = some (left * right) := if_pos fits

theorem shl_eq {value amount : Nat} (small : amount < 32)
    (fits : value * 2 ^ amount < word) :
    shl value amount = some (value * 2 ^ amount) := by
  rw [shl, if_pos small, Nat.shiftLeft_eq, Nat.mod_eq_of_lt fits]

theorem shr_eq {value amount : Nat} (small : amount < 32) :
    shr value amount = some (value / 2 ^ amount) := by
  rw [shr, if_pos small, Nat.shiftRight_eq_div_pow]

/-- Bits that do not overlap are joined by an addition. -/
theorem or_shifted {low amount : Nat} (small : low < 2 ^ amount)
    (high : Nat) : low ||| high * 2 ^ amount = low + high * 2 ^ amount := by
  rw [← Nat.shiftLeft_eq, Nat.lor_comm, ← Nat.shiftLeft_add_eq_or_of_lt small,
    Nat.add_comm]

/-- Joining `low` with shifted bits stays within the bits of both. -/
theorem add_shifted_lt {low high amount bits : Nat} (small : low < 2 ^ amount)
    (fits : high < 2 ^ bits) :
    low + high * 2 ^ amount < 2 ^ (amount + bits) := by
  have next : (high + 1) * 2 ^ amount ≤ 2 ^ bits * 2 ^ amount :=
    Nat.mul_le_mul_right _ fits
  rw [Nat.add_comm amount, Nat.pow_add]
  rw [Nat.add_mul, Nat.one_mul] at next
  omega

end HfMount.CheckedWord
