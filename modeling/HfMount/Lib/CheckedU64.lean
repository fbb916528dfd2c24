import Mathlib.Algebra.GroupWithZero.Nat
import Mathlib.Data.Nat.Basic
import Mathlib.Order.MinMax

/-!
# Checked 64-bit arithmetic

Operations on `u64` values, as natural numbers, that stop where the machine
operation would overflow: `none` stands for the overflow.
-/

namespace HfMount.CheckedU64

def maxValue : Nat := 2 ^ 64 - 1

def add (left right : Nat) : Option Nat :=
  if left + right ≤ maxValue then some (left + right) else none

def sub (left right : Nat) : Option Nat :=
  if right ≤ left then some (left - right) else none

def mul (left right : Nat) : Option Nat :=
  if left * right ≤ maxValue then some (left * right) else none

def saturatingAdd (left right : Nat) : Nat := min (left + right) maxValue

/-- The quotient, rounded up. -/
def divCeil (left right : Nat) : Nat :=
  if 0 < left % right then left / right + 1 else left / right

theorem add_eq {left right : Nat} (fits : left + right ≤ maxValue) :
    add left right = some (left + right) := if_pos fits

theorem add_eq_some {left right sum : Nat} :
    add left right = some sum ↔ left + right ≤ maxValue ∧ left + right = sum := by
  simp [add]

theorem sub_eq {left right : Nat} (fits : right ≤ left) :
    sub left right = some (left - right) := if_pos fits

theorem mul_eq {left right : Nat} (fits : left * right ≤ maxValue) :
    mul left right = some (left * right) := if_pos fits

theorem mul_eq_some {left right product : Nat} :
    mul left right = some product ↔
      left * right ≤ maxValue ∧ left * right = product := by
  simp [mul]

@[simp] theorem divCeil_mul {count right : Nat} (positive : 0 < right) :
    divCeil (count * right) right = count := by
  rw [divCeil, Nat.mul_mod_left, if_neg (Nat.lt_irrefl 0),
    Nat.mul_div_cancel _ positive]

end HfMount.CheckedU64
