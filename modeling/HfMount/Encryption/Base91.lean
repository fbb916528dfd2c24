import HfMount.Lib.CheckedWord
import HfMount.Lib.Utf8

/-!
# Base91

The encoder collects input bits until more than 13 are there, takes 13 or 14
of them as one number below `91 * 91` and writes it as two symbols; what is
left at the end takes one or two symbols.  The decoder goes the other way.
Every step is in checked arithmetic: `none` is an overflow, an index out of
range or a failed `expect`.
-/

namespace HfMount.Encryption.Base91

open CheckedWord Utf8

def symbols : List Char :=
  ['A', 'B', 'C', 'D', 'E', 'F', 'G', 'H', 'I', 'J', 'K', 'L', 'M', 'N', 'O',
    'P', 'Q', 'R', 'S', 'T', 'U', 'V', 'W', 'X', 'Y', 'Z', 'a', 'b', 'c', 'd',
    'e', 'f', 'g', 'h', 'i', 'j', 'k', 'l', 'm', 'n', 'o', 'p', 'q', 'r', 's',
    't', 'u', 'v', 'w', 'x', 'y', 'z', '0', '1', '2', '3', '4', '5', '6', '7',
    '8', '9', '!', '#', '$', '%', '&', '(', ')', '*', '+', ',', '.', '\x27',
    ':', ';', '<', '=', '>', '?', '@', '[', ']', '^', '_', '\x60', '\x7b', '|',
    '\x7d', '~', '\x22']

/-- `ALPHABET`. -/
def alphabet : Bytes := symbols.map fun symbol => symbol.toNat.toUInt8

/-- `NONE`: no index of the alphabet. -/
def noIndex : Nat := 0xff

/-- `INVERSE`, filled by a loop over the alphabet. -/
def inverse : UInt8 → Nat :=
  alphabet.zipIdx.foldl
    (fun table entry => Function.update table entry.1 entry.2)
    fun _ => noIndex

inductive Error where
  | invalidCharacter
  | invalidPadding
  deriving DecidableEq

def encodedLenUpperBound (srcLen : Nat) : Nat :=
  let inputBits := srcLen * 8
  let fullBlocks := inputBits / 13
  let remainingBits := inputBits % 13
  if 0 < remainingBits then fullBlocks * 2 + 2 else fullBlocks * 2

/-! ## Encoding -/

structure EncodeState where
  out : Bytes
  acc : Nat
  numBits : Nat

def EncodeState.start : EncodeState :=
  { out := []
    acc := 0
    numBits := 0 }

def encodeByte (state : EncodeState) (x : UInt8) : Option EncodeState := do
  let shifted ← shl x.toNat state.numBits
  let acc := state.acc ||| shifted
  let numBits ← add state.numBits 8
  if 13 < numBits then
    let low := acc &&& 0x1fff
    let v := if 88 < low then low else acc &&& 0x3fff
    let taken := if 88 < low then 13 else 14
    let rest ← shr acc taken
    let left ← sub numBits taken
    let first ← alphabet[v % 91]?
    let second ← alphabet[v / 91]?
    some
      { out := state.out ++ [first, second]
        acc := rest
        numBits := left }
  else some { state with acc, numBits }

def encodeTail (state : EncodeState) : Option Bytes :=
  if 0 < state.numBits then do
    let first ← alphabet[state.acc % 91]?
    if 7 < state.numBits || 90 < state.acc then do
      let second ← alphabet[state.acc / 91]?
      some (state.out ++ [first, second])
    else some (state.out ++ [first])
  else some state.out

def encode (src : Bytes) : Option (List Char) := do
  let state ← src.foldlM encodeByte .start
  let out ← encodeTail state
  fromUtf8 out

/-! ## Decoding -/

structure DecodeState where
  out : Bytes
  acc : Option Nat
  b : Nat
  numBits : Nat

def DecodeState.start : DecodeState :=
  { out := []
    acc := none
    b := 0
    numBits := 0 }

/-- The loop that pushes the whole bytes; with fewer than eight bits the
subtraction overflows. -/
def drain : Bytes → Nat → Nat → Option (Bytes × Nat × Nat)
  | out, b, numBits + 8 =>
      let pushed := out ++ [UInt8.ofNat (b &&& 0xff)]
      if numBits ≤ 7 then some (pushed, b >>> 8, numBits)
      else drain pushed (b >>> 8) numBits
  | _, _, _ => none

/-- The second symbol of a pair. -/
def decodePair (state : DecodeState) (acc idx : Nat) : Option DecodeState := do
  let scaled ← mul idx 91
  let a ← add acc scaled
  let shifted ← shl a state.numBits
  let numBits ← add state.numBits (if 88 < a &&& 0x1fff then 13 else 14)
  let drained ← drain state.out (state.b ||| shifted) numBits
  some
    { out := drained.1
      acc := none
      b := drained.2.1
      numBits := drained.2.2 }

def decodeByte (state : DecodeState) (x : UInt8) :
    Option (Except Error DecodeState) :=
  let idx := inverse x
  if idx = noIndex then some (.error .invalidCharacter)
  else match state.acc with
    | some acc => (decodePair state acc idx).map .ok
    | none => some (.ok { state with acc := some idx })

def decodeBytes : DecodeState → Bytes → Option (Except Error DecodeState)
  | state, [] => some (.ok state)
  | state, x :: src =>
      match decodeByte state x with
      | some (.ok next) => decodeBytes next src
      | some (.error error) => some (.error error)
      | none => none

def decodeTail (state : DecodeState) : Option (Except Error Bytes) :=
  match state.acc with
  | some a => do
      let shifted ← shl a state.numBits
      let last := state.b ||| shifted
      if 0xff < last then some (.error .invalidPadding)
      else some (.ok (state.out ++ [UInt8.ofNat (last &&& 0xff)]))
  | none =>
      if state.b ≠ 0 then some (.error .invalidPadding)
      else some (.ok state.out)

def decode (src : List Char) : Option (Except Error Bytes) :=
  match decodeBytes .start (utf8 src) with
  | some (.ok state) => decodeTail state
  | some (.error error) => some (.error error)
  | none => none

/-! ## The alphabet -/

/-- The symbol of an index below 91. -/
def symbol (index : Nat) : UInt8 := alphabet.getD index 0

theorem length_alphabet : alphabet.length = 91 := by decide

theorem getElem?_alphabet {index : Nat} (small : index < 91) :
    alphabet[index]? = some (symbol index) := by
  have bound : index < alphabet.length := length_alphabet.symm ▸ small
  rw [symbol, List.getD_eq_getElem?_getD, List.getElem?_eq_getElem bound]
  rfl

theorem inverse_symbol {index : Nat} (small : index < 91) :
    inverse (symbol index) = index := by
  have all : ∀ index : Fin 91, inverse (symbol index) = index := by
    decide +kernel
  exact all ⟨index, small⟩

/-- A byte with an index is the symbol of that index. -/
theorem inverse_spec {x : UInt8} (known : inverse x ≠ noIndex) :
    inverse x < 91 ∧ symbol (inverse x) = x := by
  have all : ∀ code : Fin 256, inverse (UInt8.ofNat code) ≠ noIndex →
      inverse (UInt8.ofNat code) < 91 ∧
        symbol (inverse (UInt8.ofNat code)) = UInt8.ofNat code := by
    decide +kernel
  have here := all ⟨x.toNat, x.toNat_lt⟩
  rw [UInt8.ofNat_toNat] at here
  exact here known

theorem symbol_mem {index : Nat} (small : index < 91) :
    symbol index ∈ alphabet :=
  List.mem_of_getElem? (getElem?_alphabet small)

theorem alphabet_ascii : ∀ byte ∈ alphabet, byte < 128 := by
  have all : alphabet.all (fun byte => decide (byte < 128)) = true := by decide
  simpa using all

end HfMount.Encryption.Base91
