import HfMount.Encryption.Path

/-!
# Decrypting encrypted paths

For a cipher whose decryption inverts its encryption, the padding that a name
gets is stripped again, and a path is recovered component by component, both
directions rebuilding the same tweaks.
-/

namespace HfMount.Encryption

open SlashPath Utf8

/-- What the code relies on: the compile-time assertion on the minimum input,
and that decryption inverts encryption for equal tweaks and keeps the
length. -/
structure Hctr2.Inverts (cipher : Hctr2) : Prop where
  minInput_le : cipher.minInput ≤ padBlock
  encrypts : ∀ input tweak, cipher.minInput ≤ input.length →
    ∃ output, cipher.encrypt input tweak = some output ∧
      output.length = input.length ∧
      cipher.decrypt output tweak = some input

/-! ## Names and their padding -/

theorem validateName_ok_iff {name : Name} :
    validateName name = .ok () ↔
      name ≠ [] ∧ 0 ∉ utf8 name ∧ '/' ∉ name := by
  unfold validateName
  split <;> rename_i bad
  · simp only [Bool.or_eq_true, List.isEmpty_iff, List.contains_iff_mem] at bad
    simp only [reduceCtorEq, false_iff]
    tauto
  · simp only [Bool.or_eq_true, List.isEmpty_iff, List.contains_iff_mem] at bad
    simp only [true_iff]
    tauto

/-- The length to encrypt leaves room for the padding, is at least a block
and still fits once encoded. -/
theorem encryptInputLen_spec {nameLen inputLen : Nat}
    (chosen : encryptInputLen nameLen = some inputLen) :
    nameLen + minZeroPad ≤ inputLen ∧ padBlock ≤ inputLen ∧
      Base91.encodedLenUpperBound inputLen ≤ nameMax := by
  have one : encodedFits padBlock = true := by decide
  unfold encryptInputLen at chosen
  dsimp only at chosen
  split at chosen <;> rename_i padded
  · obtain rfl := Option.some.inj chosen
    refine ⟨?_, ?_, by simpa [encodedFits] using padded⟩ <;>
      simp only [minZeroPad, padBlock] <;> omega
  split at chosen <;> rename_i unpadded
  · obtain rfl := Option.some.inj chosen
    refine ⟨Nat.le_refl _, ?_, by simpa [encodedFits] using unpadded⟩
    by_contra short
    have block : (nameLen + minZeroPad + padBlock - 1) / padBlock * padBlock =
        padBlock := by
      simp only [minZeroPad, padBlock] at short ⊢
      omega
    apply padded
    rw [block]
    exact one
  · cases chosen

theorem length_padName {name : Name} {inputLen : Nat}
    (room : (utf8 name).length ≤ inputLen) :
    (padName name inputLen).length = inputLen := by
  rw [padName, List.length_append, List.length_replicate,
    Nat.sub_add_cancel room]

theorem foldl_or_replicate (count : Nat) :
    (List.replicate count (0 : UInt8)).foldl (· ||| ·) 0 = 0 := by
  induction count with
  | zero => rfl
  | succ count ih => simpa [List.replicate_succ] using ih

/-- The first bytes of the padding are zero. -/
theorem tag_padName {name : Name} {inputLen : Nat}
    (room : (utf8 name).length + minZeroPad ≤ inputLen) :
    ((padName name inputLen).take minZeroPad).foldl (· ||| ·) 0 = 0 := by
  rw [padName, List.take_append_of_le_length
    (by rw [List.length_replicate]; omega), List.take_replicate]
  exact foldl_or_replicate _

theorem strip_padName {name : Name} (nonempty : name ≠ [])
    (noNul : 0 ∉ utf8 name) (inputLen : Nat) :
    stripLeadingNuls (padName name inputLen) = utf8 name := by
  have zeros : ∀ byte ∈ List.replicate (inputLen - (utf8 name).length)
      (0 : UInt8), (byte == 0) = true := by
    intro byte member
    simp [List.eq_of_mem_replicate member]
  rw [stripLeadingNuls, padName, List.dropWhile_append_of_pos zeros]
  cases bytes : utf8 name with
  | nil => exact absurd (utf8_eq_nil.mp bytes) nonempty
  | cons first rest =>
      have nonzero : first ≠ 0 := by
        intro zero
        apply noNul
        simp [bytes, zero]
      simp [nonzero]

/-! ## One component -/

section

variable {cipher : Hctr2}

/-- What encrypting a component does, once the name is accepted. -/
theorem Hctr2.Inverts.component (inverts : cipher.Inverts) {name : Name}
    (parent : Path) {inputLen : Nat} (valid : validateName name = .ok ())
    (chosen : encryptInputLen (utf8 name).length = some inputLen) :
    ∃ ciphertext,
      encryptComponent cipher name parent =
        some (.ok (base91Encode ciphertext)) ∧
      ciphertext.length = inputLen ∧
      cipher.decrypt ciphertext (utf8 parent) =
        some (padName name inputLen) := by
  obtain ⟨room, block, _⟩ := encryptInputLen_spec chosen
  have length := length_padName (Nat.le_trans (Nat.le_add_right _ _) room)
  obtain ⟨ciphertext, encrypted, same, decrypted⟩ :=
    inverts.encrypts (padName name inputLen) (utf8 parent)
      (by rw [length]; exact Nat.le_trans inverts.minInput_le block)
  refine ⟨ciphertext, ?_, same.trans length, decrypted⟩
  simp only [encryptComponent, valid, chosen, encrypted, Option.map_some]

theorem encryptComponent_ok {name stored : Name} {parent : Path}
    (encrypted : encryptComponent cipher name parent = some (.ok stored)) :
    validateName name = .ok () ∧
      ∃ inputLen, encryptInputLen (utf8 name).length = some inputLen := by
  unfold encryptComponent at encrypted
  split at encrypted
  · cases encrypted
  · rename_i valid
    split at encrypted
    · cases encrypted
    · rename_i inputLen chosen
      exact ⟨valid, inputLen, chosen⟩

/-- A name is accepted under every directory or under none. -/
theorem Hctr2.Inverts.checkNameLen_iff (inverts : cipher.Inverts)
    (name : Name) (parent : Path) :
    checkNameLen name = .ok () ↔
      ∃ stored, encryptComponent cipher name parent = some (.ok stored) := by
  unfold checkNameLen
  constructor
  · intro accepted
    split at accepted
    · cases accepted
    · rename_i valid
      split at accepted
      · rename_i inputLen chosen
        obtain ⟨_, encrypted, _⟩ := inverts.component parent valid chosen
        exact ⟨_, encrypted⟩
      · cases accepted
  · intro encrypted
    obtain ⟨stored, encrypted⟩ := encrypted
    obtain ⟨valid, inputLen, chosen⟩ := encryptComponent_ok encrypted
    rw [valid, chosen]

/-- A file name that the store accepts as one component. -/
structure SafeName (stored : Name) : Prop where
  positive : 1 ≤ (utf8 stored).length
  short : (utf8 stored).length ≤ nameMax
  noSlash : '/' ∉ stored
  noNul : '\x00' ∉ stored

theorem safeName_base91Encode {ciphertext : Bytes}
    (block : padBlock ≤ ciphertext.length)
    (fits : Base91.encodedLenUpperBound ciphertext.length ≤ nameMax) :
    SafeName (base91Encode ciphertext) := by
  have encoded := encode_eq_base91Encode ciphertext
  have length : (utf8 (base91Encode ciphertext)).length =
      (base91Encode ciphertext).length := by
    rw [Base91.utf8_encode encoded]
    have text := encoded
    rw [Base91.encode_eq] at text
    rw [← Option.some.inj text, length_asciiText]
  refine ⟨?_, ?_, Base91.slash_not_mem_encode encoded,
    Base91.nul_not_mem_encode encoded⟩
  · rw [length]
    by_contra short
    have empty : base91Encode ciphertext = [] := by
      rw [← List.length_eq_zero_iff]
      omega
    have read := base91Decode_encode ciphertext
    have none := base91Decode_encode []
    have blank : base91Encode [] = [] := by decide
    rw [empty] at read
    rw [blank, read] at none
    have same : ciphertext = [] := by simpa using none
    rw [same] at block
    simp [padBlock] at block
  · rw [length]
    exact Nat.le_trans (Base91.length_encode_le encoded) fits

theorem Hctr2.Inverts.component_round_trip (inverts : cipher.Inverts)
    {name stored : Name} {parent : Path}
    (encrypted : encryptComponent cipher name parent = some (.ok stored)) :
    decryptComponent cipher stored parent = some name ∧ SafeName stored := by
  obtain ⟨valid, inputLen, chosen⟩ := encryptComponent_ok encrypted
  obtain ⟨room, block, fits⟩ := encryptInputLen_spec chosen
  obtain ⟨nonempty, noNul, _⟩ := validateName_ok_iff.mp valid
  obtain ⟨ciphertext, written, length, decrypted⟩ :=
    inverts.component parent valid chosen
  rw [written] at encrypted
  obtain rfl : base91Encode ciphertext = stored := by simpa using encrypted
  refine ⟨?_, safeName_base91Encode (length ▸ block) (length ▸ fits)⟩
  simp only [decryptComponent, base91Decode_encode,
    if_neg (show ¬ ciphertext.length < padBlock by omega), decrypted,
    Option.bind_eq_bind, Option.bind_some, tag_padName room,
    strip_padName nonempty noNul, fromUtf8_utf8, valid, ne_eq, not_true,
    if_false]

/-! ## Whole paths -/

theorem encryptComponents_cons {parent : Path} {comp : Name}
    {comps storeds : List Name}
    (encrypted : encryptComponents cipher parent (comp :: comps) =
      some (.ok storeds)) :
    ∃ stored rest, storeds = stored :: rest ∧
      encryptComponent cipher comp parent = some (.ok stored) ∧
      encryptComponents cipher (pushComponent parent comp) comps =
        some (.ok rest) := by
  rw [encryptComponents] at encrypted
  split at encrypted
  · cases encrypted
  · cases encrypted
  · rename_i stored first
    obtain ⟨result, later, mapped⟩ := Option.map_eq_some_iff.mp encrypted
    cases result with
    | error error => cases mapped
    | ok rest =>
        obtain rfl : stored :: rest = storeds := by
          simpa [Except.map] using mapped
        exact ⟨stored, rest, rfl, first, later⟩

theorem Hctr2.Inverts.components_round_trip (inverts : cipher.Inverts)
    {comps storeds : List Name} {parent : Path}
    (encrypted : encryptComponents cipher parent comps = some (.ok storeds)) :
    decryptComponents cipher parent storeds = some comps ∧
      storeds.length = comps.length ∧ ∀ stored ∈ storeds, SafeName stored := by
  induction comps generalizing parent storeds with
  | nil =>
      obtain rfl : [] = storeds := by simpa [encryptComponents] using encrypted
      simp [decryptComponents]
  | cons comp comps ih =>
      obtain ⟨stored, rest, rfl, first, later⟩ :=
        encryptComponents_cons encrypted
      obtain ⟨read, safe⟩ := inverts.component_round_trip first
      obtain ⟨readRest, length, safeRest⟩ := ih later
      refine ⟨?_, by simp [length], ?_⟩
      · simp [decryptComponents, read, readRest]
      · simp [safe]
        exact safeRest

theorem SafeName.valid {stored : Name} (safe : SafeName stored) :
    ValidName stored := by
  refine ⟨?_, safe.noSlash⟩
  intro empty
  have positive := safe.positive
  simp [empty] at positive

theorem encryptPath_eq (path : Path) :
    encryptPath cipher path =
      (encryptComponents cipher [] (components path)).map
        (·.map (['/'].intercalate ·)) := by
  unfold encryptPath components
  split
  · rfl
  · rfl

theorem decryptPath_eq (stored : Path) :
    decryptPath cipher stored =
      (decryptComponents cipher [] (components stored)).map
        (['/'].intercalate ·) := by
  unfold decryptPath components
  split
  · rfl
  · rfl

/-- An encrypted path, component by component. -/
theorem Hctr2.Inverts.path_components (inverts : cipher.Inverts)
    {path stored : Path}
    (encrypted : encryptPath cipher path = some (.ok stored)) :
    encryptComponents cipher [] (components path) =
        some (.ok (components stored)) ∧
      ∀ name ∈ components stored, SafeName name := by
  rw [encryptPath_eq] at encrypted
  obtain ⟨result, written, mapped⟩ := Option.map_eq_some_iff.mp encrypted
  cases result with
  | error error => cases mapped
  | ok storeds =>
      obtain rfl : ['/'].intercalate storeds = stored := by
        simpa [Except.map] using mapped
      have safe := (inverts.components_round_trip written).2.2
      rw [components_intercalate fun name member => (safe name member).valid]
      exact ⟨written, safe⟩

theorem Hctr2.Inverts.path_round_trip (inverts : cipher.Inverts)
    {path stored : Path}
    (encrypted : encryptPath cipher path = some (.ok stored)) :
    decryptPath cipher stored = some path := by
  have written := (inverts.path_components encrypted).1
  rw [decryptPath_eq, (inverts.components_round_trip written).1,
    Option.map_some, intercalate_components]

/-- What is encrypted can be decrypted, every component of the result is a
file name, and the length check accepts exactly the names that can be
encrypted. -/
theorem encrypted_path_round_trip (inverts : cipher.Inverts) :
    (∀ path stored, encryptPath cipher path = some (.ok stored) →
      decryptPath cipher stored = some path ∧
      (∀ comp ∈ components stored,
        1 ≤ (utf8 comp).length ∧ (utf8 comp).length ≤ 255 ∧
          '/' ∉ comp ∧ '\x00' ∉ comp) ∧
      (components stored).length = (components path).length) ∧
    ∀ name parent, checkNameLen name = .ok () ↔
      ∃ stored, encryptComponent cipher name parent = some (.ok stored) := by
  refine ⟨?_, inverts.checkNameLen_iff⟩
  intro path stored encrypted
  obtain ⟨written, safe⟩ := inverts.path_components encrypted
  refine ⟨inverts.path_round_trip encrypted, ?_,
    (inverts.components_round_trip written).2.1⟩
  intro comp member
  obtain ⟨positive, short, noSlash, noNul⟩ := safe comp member
  exact ⟨positive, short, noSlash, noNul⟩

end

/-- A cipher for trying things out: the bytes backwards, each combined with
the length of the tweak. -/
def backwards : Hctr2 :=
  let mix (input tweak : Bytes) : Option Bytes :=
    if input.length < 16 then none
    else some (input.map (· ^^^ UInt8.ofNat tweak.length)).reverse
  { minInput := 16
    encrypt := mix
    decrypt := mix }

theorem backwards_backwards {input tweak output : Bytes}
    (mixed : backwards.decrypt input tweak = some output) :
    backwards.decrypt output tweak = some input := by
  have long : ¬ input.length < 16 := by
    intro short
    simp [backwards, short] at mixed
  obtain rfl : (input.map (· ^^^ UInt8.ofNat tweak.length)).reverse =
      output := by
    simpa [backwards, long] using mixed
  simp [backwards, long, Function.comp_def, UInt8.xor_assoc]

theorem backwards_inverts : backwards.Inverts := by
  refine ⟨by decide, ?_⟩
  intro input tweak enough
  have long : ¬ input.length < 16 := Nat.not_lt.mpr enough
  have mixed : backwards.decrypt input tweak =
      some (input.map (· ^^^ UInt8.ofNat tweak.length)).reverse := by
    simp [backwards, long]
  exact ⟨_, mixed, by simp, backwards_backwards mixed⟩

theorem encrypted_path_round_trip_of_backwards :
    (∃ stored, encryptPath backwards ['a', '/', 'b'] = some (.ok stored) ∧
      decryptPath backwards stored = some ['a', '/', 'b'] ∧
      (components stored).length = 2) ∧
    ∃ stored, encryptComponent backwards ['a'] ['b'] = some (.ok stored) := by
  have accepted : (encryptPath backwards ['a', '/', 'b']).any Except.isOk =
      true := by decide +kernel
  have round := encrypted_path_round_trip backwards_inverts
  refine ⟨?_, (round.2 ['a'] ['b']).mp (by decide)⟩
  obtain ⟨outcome, encrypted, ok⟩ := (Option.any_eq_true _ _).mp accepted
  cases outcome with
  | error _ => cases ok
  | ok stored =>
      obtain ⟨read, _, length⟩ := round.1 _ stored encrypted
      exact ⟨stored, encrypted, read, length⟩

end HfMount.Encryption
