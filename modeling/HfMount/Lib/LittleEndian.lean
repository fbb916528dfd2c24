import HfMount.Basic
import Mathlib.Data.Nat.Digits.Defs

/-!
# Byte strings as numbers

`value` reads a byte string as a number, lowest byte first.
-/

namespace HfMount.LittleEndian

def value (bytes : Bytes) : Nat :=
  Nat.ofDigits 256 (bytes.map (·.toNat))

@[simp] theorem value_nil : value [] = 0 := rfl

theorem value_cons (byte : UInt8) (bytes : Bytes) :
    value (byte :: bytes) = byte.toNat + 256 * value bytes := by
  simp [value, Nat.ofDigits_cons]

theorem value_append (left right : Bytes) :
    value (left ++ right) = value left + 256 ^ left.length * value right := by
  simp [value, Nat.ofDigits_append]

theorem value_singleton (byte : UInt8) : value [byte] = byte.toNat := by
  simp [value_cons]

theorem digit_lt {bytes : Bytes} :
    ∀ digit ∈ bytes.map (·.toNat), digit < 256 := by
  intro digit member
  obtain ⟨byte, _, rfl⟩ := List.mem_map.mp member
  exact byte.toNat_lt

theorem value_lt (bytes : Bytes) : value bytes < 2 ^ (8 * bytes.length) := by
  have bound := Nat.ofDigits_lt_base_pow_length (by decide : 1 < 256)
    (@digit_lt bytes)
  rwa [List.length_map, show (256 : Nat) = 2 ^ 8 from rfl, ← Nat.pow_mul] at bound

/-- Byte strings of one length with the same value are equal. -/
theorem eq_of_value_eq {left right : Bytes}
    (length : left.length = right.length) (same : value left = value right) :
    left = right := by
  have digits := Nat.ofDigits_inj_of_len_eq (by decide : 1 < 256)
    (by simpa using length) digit_lt digit_lt same
  exact List.map_injective_iff.mpr (fun _ _ => UInt8.toNat_inj.mp) digits

/-- `count` digits hold `8 * count` bits. -/
theorem pow_256 (count : Nat) : 256 ^ count = 2 ^ (8 * count) := by
  rw [show (256 : Nat) = 2 ^ 8 from rfl, ← Nat.pow_mul]

end HfMount.LittleEndian
