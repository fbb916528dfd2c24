import HfMount.Lib.SlashPath
import Mathlib.Algebra.GroupWithZero.Nat

/-!
# Shared types

Inode numbers, file contents, content hashes and clock readings, as the whole
mount uses them.
-/

namespace HfMount

abbrev Ino := Nat

abbrev Bytes := List UInt8

/-- A content hash in its textual form; the empty text stands for no hash. -/
abbrev Hash := List Char

instance : LawfulBEq (Ino × Nat) := inferInstance

/-- A reading of the clock, in an arbitrary unit. -/
abbrev Time := Nat

/-- `ROOT_INODE`. -/
def rootInode : Ino := 1

/-- `u64::MAX`. -/
def u64Max : Nat := 2 ^ 64 - 1

/-- Content-addressed storage: what was uploaded under a hash is what a
download of that hash returns. -/
structure ContentStore where
  hash : Bytes → Hash
  fetch : Hash → Option Bytes
  fetch_hash : ∀ content, fetch (hash content) = some content

theorem ContentStore.hash_injective (store : ContentStore) {left right : Bytes}
    (equal : store.hash left = store.hash right) : left = right := by
  have fetched := store.fetch_hash left
  rw [equal, store.fetch_hash right] at fetched
  exact (Option.some.inj fetched).symm

/-- A store whose hashes spell out the content. -/
def ContentStore.spelled : ContentStore where
  hash content := '#' :: content.map fun byte => Char.ofNat byte.toNat
  fetch
    | [] => none
    | _ :: text => some (text.map fun char => UInt8.ofNat char.toNat)
  fetch_hash content := by
    have same : ∀ byte : UInt8,
        UInt8.ofNat (Char.ofNat byte.toNat).toNat = byte := by
      intro byte
      have valid : byte.toNat.isValidChar :=
        Or.inl (Nat.lt_trans byte.toNat_lt (by decide))
      have code : (Char.ofNat byte.toNat).toNat = byte.toNat := by
        rw [Char.ofNat, dif_pos valid]
        rfl
      rw [code, UInt8.ofNat_toNat]
    simp [List.map_map, Function.comp_def, same]

end HfMount
