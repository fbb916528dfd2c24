import HfMount.Encryption.Base91RoundTrip
import HfMount.Lib.SlashPath

/-!
# The path cipher

Each component of a path is padded with zero bytes in front, encrypted by
HCTR2 with the plaintext path of its directory as the tweak, and written in
base91.  HCTR2 itself comes from a library and is a parameter.
-/

namespace HfMount.Encryption

open SlashPath Utf8

/-! ## Base91 as its callers see it -/

/-- `base91::encode`, which never panics. -/
def base91Encode (src : Bytes) : List Char :=
  (Base91.encode src).get (by rw [Base91.encode_eq]; rfl)

/-- `base91::decode`, which never overflows. -/
def base91Decode (text : List Char) : Except Base91.Error Bytes :=
  (Base91.decode text).get (Option.isSome_iff_exists.mpr (Base91.decode_total text))

theorem encode_eq_base91Encode (src : Bytes) :
    Base91.encode src = some (base91Encode src) := by
  simp [base91Encode]

theorem decode_eq_base91Decode (text : List Char) :
    Base91.decode text = some (base91Decode text) := by
  simp [base91Decode]

theorem base91Decode_encode (src : Bytes) :
    base91Decode (base91Encode src) = .ok src := by
  have read := Base91.decode_encode (encode_eq_base91Encode src)
  rw [decode_eq_base91Decode] at read
  exact Option.some.inj read

/-! ## HCTR2 -/

/-- HCTR2-AES-128 under one key: input and tweak to output, or an error. -/
structure Hctr2 where
  /-- `MIN_INPUT_LENGTH`. -/
  minInput : Nat
  encrypt : Bytes → Bytes → Option Bytes
  decrypt : Bytes → Bytes → Option Bytes

/-! ## Names -/

def padBlock : Nat := 32

def minZeroPad : Nat := 12

def nameMax : Nat := 255

inductive PathError where
  /-- Empty component, or one containing NUL or `/`. -/
  | invalidName
  /-- The encrypted form would exceed `NAME_MAX`. -/
  | nameTooLong
  deriving DecidableEq

def validateName (name : Name) : Except PathError Unit :=
  if name.isEmpty || (utf8 name).contains 0 || name.contains '/' then
    .error .invalidName
  else .ok ()

def encodedFits (inputLen : Nat) : Bool :=
  Base91.encodedLenUpperBound inputLen ≤ nameMax

/-- The length to encrypt for a name: rounded up to whole blocks when that
still fits, otherwise the exact length. -/
def encryptInputLen (nameLen : Nat) : Option Nat :=
  let minLen := nameLen + minZeroPad
  let padded := (minLen + padBlock - 1) / padBlock * padBlock
  if encodedFits padded then some padded
  else if encodedFits minLen then some minLen
  else none

def stripLeadingNuls (bytes : Bytes) : Bytes := bytes.dropWhile (· == 0)

def pushComponent (parent : Path) (comp : Name) : Path :=
  if parent.isEmpty then parent ++ comp else parent ++ ['/'] ++ comp

def checkNameLen (name : Name) : Except PathError Unit :=
  match validateName name with
  | .error error => .error error
  | .ok () =>
      match encryptInputLen (utf8 name).length with
      | some _ => .ok ()
      | none => .error .nameTooLong

/-! ## Components and paths -/

/-- The buffer that is encrypted for a name. -/
def padName (name : Name) (inputLen : Nat) : Bytes :=
  List.replicate (inputLen - (utf8 name).length) 0 ++ utf8 name

section

variable (cipher : Hctr2)

/-- `none` is the panic of `expect`. -/
def encryptComponent (name : Name) (parent : Path) :
    Option (Except PathError Name) :=
  match validateName name with
  | .error error => some (.error error)
  | .ok () =>
      match encryptInputLen (utf8 name).length with
      | none => some (.error .nameTooLong)
      | some inputLen =>
          (cipher.encrypt (padName name inputLen) (utf8 parent)).map
            fun ciphertext => .ok (base91Encode ciphertext)

def decryptComponent (stored : Name) (parent : Path) : Option Name :=
  match base91Decode stored with
  | .error _ => none
  | .ok ciphertext =>
      if ciphertext.length < padBlock then none
      else do
        let plaintext ← cipher.decrypt ciphertext (utf8 parent)
        -- The zero padding is the authentication tag.
        if (plaintext.take minZeroPad).foldl (· ||| ·) 0 ≠ 0 then none
        else do
          let name ← fromUtf8 (stripLeadingNuls plaintext)
          match validateName name with
          | .ok () => some name
          | .error _ => none

def encryptComponents : Path → List Name →
    Option (Except PathError (List Name))
  | _, [] => some (.ok [])
  | parent, comp :: comps =>
      match encryptComponent cipher comp parent with
      | none => none
      | some (.error error) => some (.error error)
      | some (.ok encoded) =>
          (encryptComponents (pushComponent parent comp) comps).map
            (·.map (encoded :: ·))

def decryptComponents : Path → List Name → Option (List Name)
  | _, [] => some []
  | parent, comp :: comps => do
      let name ← decryptComponent cipher comp parent
      let names ← decryptComponents (pushComponent parent name) comps
      some (name :: names)

def encryptPath (plaintextPath : Path) : Option (Except PathError Path) :=
  if plaintextPath.isEmpty then some (.ok [])
  else
    (encryptComponents cipher [] (plaintextPath.splitOn '/')).map
      (·.map (['/'].intercalate ·))

def decryptPath (storedPath : Path) : Option Path :=
  if storedPath.isEmpty then some []
  else
    (decryptComponents cipher [] (storedPath.splitOn '/')).map
      (['/'].intercalate ·)

end

end HfMount.Encryption
