import HfMount.Encryption.Canonical
import HfMount.Encryption.PathRoundTrip

/-!
# Stored names of one plaintext name

A stored path that is accepted determines the ciphertexts of its components
when decryption is injective and the names have the usual padding.  It is the
only stored path of its plaintext path exactly if no component has a second
spelling in base91.
-/

namespace HfMount.Encryption

open SlashPath Utf8

/-- Decryption is injective for a fixed tweak. -/
def Hctr2.Injective (cipher : Hctr2) : Prop :=
  ∀ tweak left right plaintext, cipher.decrypt left tweak = some plaintext →
    cipher.decrypt right tweak = some plaintext → left = right

section

variable (cipher : Hctr2)

/-- If the component is accepted, it decrypts with the padding that
`encryptComponent` uses. -/
def UsualPadding (stored : Name) (parent : Path) : Prop :=
  ∀ name ciphertext plaintext,
    decryptComponent cipher stored parent = some name →
    base91Decode stored = .ok ciphertext →
    cipher.decrypt ciphertext (utf8 parent) = some plaintext →
    ∃ inputLen, encryptInputLen (utf8 name).length = some inputLen ∧
      plaintext = padName name inputLen

def UsuallyPadded : Path → List Name → Prop
  | _, [] => True
  | parent, stored :: rest =>
      UsualPadding cipher stored parent ∧
        ∀ name, decryptComponent cipher stored parent = some name →
          UsuallyPadded (pushComponent parent name) rest

/-- Every accepted component of a stored path has the usual padding. -/
def PaddedPath (stored : Path) : Prop :=
  UsuallyPadded cipher [] (components stored)

end

variable {cipher : Hctr2}

/-! ## Accepted components -/

/-- What an accepted component went through. -/
structure Accepted (cipher : Hctr2) (stored : Name) (parent : Path)
    (name : Name) (ciphertext plaintext : Bytes) : Prop where
  decoded : base91Decode stored = .ok ciphertext
  block : padBlock ≤ ciphertext.length
  decrypted : cipher.decrypt ciphertext (utf8 parent) = some plaintext
  valid : validateName name = .ok ()

theorem decryptComponent_some {stored name : Name} {parent : Path}
    (read : decryptComponent cipher stored parent = some name) :
    ∃ ciphertext plaintext,
      Accepted cipher stored parent name ciphertext plaintext := by
  unfold decryptComponent at read
  split at read
  · cases read
  rename_i ciphertext decoded
  split at read
  · cases read
  rename_i long
  obtain ⟨plaintext, decrypted, read⟩ := Option.bind_eq_some_iff.mp read
  split at read
  · cases read
  obtain ⟨text, _, read⟩ := Option.bind_eq_some_iff.mp read
  split at read <;> rename_i valid
  · obtain rfl := Option.some.inj read
    exact ⟨ciphertext, plaintext, decoded, Nat.le_of_not_lt long, decrypted,
      valid⟩
  · cases read

/-- Only the decoded bytes of a stored name matter. -/
theorem decryptComponent_congr {left right : Name}
    (same : base91Decode left = base91Decode right) (parent : Path) :
    decryptComponent cipher left parent =
      decryptComponent cipher right parent := by
  rw [decryptComponent, decryptComponent, same]

theorem usualPadding_congr {left right : Name}
    (same : base91Decode left = base91Decode right) {parent : Path}
    (padded : UsualPadding cipher left parent) :
    UsualPadding cipher right parent := by
  unfold UsualPadding at padded ⊢
  rwa [decryptComponent_congr same, same] at padded

theorem decode_of_base91Decode {stored : Name} {bytes : Bytes}
    (decoded : base91Decode stored = .ok bytes) :
    Base91.decode stored = some (.ok bytes) := by
  rw [decode_eq_base91Decode, decoded]

theorem base91Decode_of_decode {stored : Name} {bytes : Bytes}
    (decoded : Base91.decode stored = some (.ok bytes)) :
    base91Decode stored = .ok bytes := by
  rw [decode_eq_base91Decode] at decoded
  exact Option.some.inj decoded

/-- Two stored names of one name under one directory are spellings of the same
ciphertext. -/
theorem same_ciphertext (injective : cipher.Injective) {left right name : Name}
    {parent : Path} (paddedLeft : UsualPadding cipher left parent)
    (paddedRight : UsualPadding cipher right parent)
    (readLeft : decryptComponent cipher left parent = some name)
    (readRight : decryptComponent cipher right parent = some name) :
    base91Decode left = base91Decode right := by
  obtain ⟨leftBytes, leftPlain, acceptedLeft⟩ := decryptComponent_some readLeft
  obtain ⟨rightBytes, rightPlain, acceptedRight⟩ :=
    decryptComponent_some readRight
  obtain ⟨leftLen, chosenLeft, rfl⟩ := paddedLeft _ _ _ readLeft
    acceptedLeft.decoded acceptedLeft.decrypted
  obtain ⟨rightLen, chosenRight, rfl⟩ := paddedRight _ _ _ readRight
    acceptedRight.decoded acceptedRight.decrypted
  obtain rfl : leftLen = rightLen :=
    Option.some.inj (chosenLeft.symm.trans chosenRight)
  have same := injective _ _ _ _ acceptedLeft.decrypted acceptedRight.decrypted
  rw [acceptedLeft.decoded, acceptedRight.decoded, same]

/-! ## Accepted paths -/

/-- The stored names of two lists spell the same bytes. -/
def SameBytes (left right : List Name) : Prop :=
  List.Forall₂ (fun one other => base91Decode one = base91Decode other)
    left right

theorem SameBytes.decryptComponents {left right : List Name}
    (same : SameBytes left right) (parent : Path) :
    decryptComponents cipher parent left =
      decryptComponents cipher parent right := by
  induction same generalizing parent with
  | nil => rfl
  | cons head _ ih =>
      simp only [Encryption.decryptComponents, decryptComponent_congr head, ih]

theorem SameBytes.usuallyPadded {left right : List Name}
    (same : SameBytes left right) {parent : Path}
    (padded : UsuallyPadded cipher parent left) :
    UsuallyPadded cipher parent right := by
  induction same generalizing parent with
  | nil => trivial
  | cons head _ ih =>
      refine ⟨usualPadding_congr head padded.1, ?_⟩
      intro name read
      rw [← decryptComponent_congr head] at read
      exact ih (padded.2 name read)

theorem decryptComponents_cons {parent : Path} {stored : Name}
    {storeds names : List Name}
    (read : decryptComponents cipher parent (stored :: storeds) = some names) :
    ∃ name rest, names = name :: rest ∧
      decryptComponent cipher stored parent = some name ∧
      decryptComponents cipher (pushComponent parent name) storeds =
        some rest := by
  rw [decryptComponents] at read
  obtain ⟨name, first, read⟩ := Option.bind_eq_some_iff.mp read
  obtain ⟨rest, later, read⟩ := Option.bind_eq_some_iff.mp read
  exact ⟨name, rest, (Option.some.inj read).symm, first, later⟩

theorem sameBytes_of_decrypted (injective : cipher.Injective)
    {left right names : List Name} {parent : Path}
    (paddedLeft : UsuallyPadded cipher parent left)
    (paddedRight : UsuallyPadded cipher parent right)
    (readLeft : decryptComponents cipher parent left = some names)
    (readRight : decryptComponents cipher parent right = some names) :
    SameBytes left right := by
  induction left generalizing right names parent with
  | nil =>
      obtain rfl : [] = names := by simpa [decryptComponents] using readLeft
      cases right with
      | nil => exact .nil
      | cons stored storeds =>
          obtain ⟨_, _, impossible, _⟩ := decryptComponents_cons readRight
          cases impossible
  | cons stored storeds ih =>
      obtain ⟨name, rest, rfl, first, later⟩ := decryptComponents_cons readLeft
      cases right with
      | nil =>
          simp [decryptComponents] at readRight
      | cons other others =>
          obtain ⟨otherName, otherRest, same, otherFirst, otherLater⟩ :=
            decryptComponents_cons readRight
          obtain ⟨rfl, rfl⟩ := List.cons.inj same
          apply List.Forall₂.cons
          · exact same_ciphertext injective paddedLeft.1 paddedRight.1 first
              otherFirst
          · exact ih (paddedLeft.2 name first) (paddedRight.2 name otherFirst)
              later otherLater

/-- The components of an accepted path are spellings, and name files. -/
theorem spelled_of_decrypted {storeds names : List Name} {parent : Path}
    (read : decryptComponents cipher parent storeds = some names) :
    (∀ stored ∈ storeds, ∃ bytes, base91Decode stored = .ok bytes ∧
      bytes ≠ []) ∧ ∀ name ∈ names, ValidName name := by
  induction storeds generalizing names parent with
  | nil =>
      obtain rfl : [] = names := by simpa [decryptComponents] using read
      simp
  | cons stored storeds ih =>
      obtain ⟨name, rest, rfl, first, later⟩ := decryptComponents_cons read
      obtain ⟨ciphertext, _, accepted⟩ := decryptComponent_some first
      obtain ⟨spelled, valid⟩ := ih later
      have some : ciphertext ≠ [] := by
        intro empty
        have block := accepted.block
        simp [empty, padBlock] at block
      obtain ⟨nonempty, _, noSlash⟩ := validateName_ok_iff.mp accepted.valid
      constructor
      · intro other member
        rcases List.mem_cons.mp member with rfl | later
        · exact ⟨ciphertext, accepted.decoded, some⟩
        · exact spelled other later
      · intro other member
        rcases List.mem_cons.mp member with rfl | later
        · exact ⟨nonempty, noSlash⟩
        · exact valid other later

/-- A text that spells some bytes is a component. -/
theorem validName_of_spelled {stored : Name} {bytes : Bytes}
    (decoded : base91Decode stored = .ok bytes) (some : bytes ≠ []) :
    ValidName stored := by
  obtain ⟨known, spells⟩ :=
    Base91.decode_ok_iff.mp (decode_of_base91Decode decoded)
  constructor
  · rintro rfl
    have none : base91Decode [] = .ok [] := by decide
    rw [none] at decoded
    exact some (by simpa using decoded.symm)
  · intro slash
    have byte : (47 : UInt8) ∈ utf8 stored := by
      apply List.mem_flatMap.mpr
      exact ⟨'/', slash, by decide⟩
    exact known 47 byte (by decide)

/-- The names of an accepted path are the components of its plaintext. -/
theorem decryptComponents_of_path {stored path : Path}
    (read : decryptPath cipher stored = some path) :
    decryptComponents cipher [] (components stored) =
      some (components path) := by
  rw [decryptPath_eq] at read
  obtain ⟨names, decrypted, rfl⟩ := Option.map_eq_some_iff.mp read
  rw [decrypted, components_intercalate (spelled_of_decrypted decrypted).2]

/-! ## Second spellings -/

/-- Paths with one plaintext differ in the spelling of their components. -/
theorem sameBytes_of_path (injective : cipher.Injective)
    {left right path : Path} (paddedLeft : PaddedPath cipher left)
    (paddedRight : PaddedPath cipher right)
    (readLeft : decryptPath cipher left = some path)
    (readRight : decryptPath cipher right = some path) :
    SameBytes (components left) (components right) :=
  sameBytes_of_decrypted injective paddedLeft paddedRight
    (decryptComponents_of_path readLeft) (decryptComponents_of_path readRight)

theorem sameBytes_eq_of_unambiguous {left right : List Name}
    (same : SameBytes left right)
    (spelled : ∀ stored ∈ left, ∃ bytes, base91Decode stored = .ok bytes ∧
      bytes ≠ [])
    (unambiguous : ∀ stored ∈ left, Base91.Unambiguous stored) :
    right = left := by
  induction same with
  | nil => rfl
  | @cons one other _ _ head _ ih =>
      obtain ⟨bytes, decoded, _⟩ := spelled one List.mem_cons_self
      have only := (Base91.only_spelling_iff
        (decode_of_base91Decode decoded)).mpr
          (unambiguous one List.mem_cons_self)
      rw [only other (decode_of_base91Decode (head ▸ decoded)),
        ih (fun stored member => spelled stored (List.mem_cons_of_mem _ member))
          (fun stored member =>
            unambiguous stored (List.mem_cons_of_mem _ member))]

/-- An ambiguous component can be spelled differently in its place. -/
theorem exists_respelled {storeds : List Name}
    (spelled : ∀ stored ∈ storeds, ∃ bytes, base91Decode stored = .ok bytes ∧
      bytes ≠ [])
    {comp : Name} (member : comp ∈ storeds)
    (ambiguous : ¬ Base91.Unambiguous comp) :
    ∃ others, SameBytes storeds others ∧ others ≠ storeds := by
  obtain ⟨bytes, decoded, _⟩ := spelled comp member
  obtain ⟨twin, twinDecoded, different, _⟩ :=
    Base91.exists_twin (decode_of_base91Decode decoded) ambiguous
  obtain ⟨before, after, rfl⟩ := List.append_of_mem member
  refine ⟨before ++ twin :: after, ?_, ?_⟩
  · apply List.rel_append
    · exact List.forall₂_refl before
    · apply List.Forall₂.cons
      · rw [decoded, base91Decode_of_decode twinDecoded]
      · exact List.forall₂_refl after
  · intro same
    apply different
    simpa using same

theorem SameBytes.spelled {left right : List Name}
    (same : SameBytes left right)
    (spelled : ∀ stored ∈ left, ∃ bytes, base91Decode stored = .ok bytes ∧
      bytes ≠ []) :
    ∀ stored ∈ right, ValidName stored := by
  induction same with
  | nil => simp
  | cons head _ ih =>
      obtain ⟨bytes, decoded, some⟩ := spelled _ List.mem_cons_self
      intro stored member
      rcases List.mem_cons.mp member with rfl | later
      · exact validName_of_spelled (head ▸ decoded) some
      · exact ih (fun other inside =>
          spelled other (List.mem_cons_of_mem _ inside)) stored later

/-- The stored paths that are the only one of their plaintext path. -/
theorem only_stored_path_iff (injective : cipher.Injective)
    {stored path : Path} (padded : PaddedPath cipher stored)
    (read : decryptPath cipher stored = some path) :
    (∀ other, PaddedPath cipher other →
        decryptPath cipher other = some path → other = stored) ↔
      ∀ comp ∈ components stored, Base91.Unambiguous comp := by
  have decrypted := decryptComponents_of_path read
  have spelled := (spelled_of_decrypted decrypted).1
  constructor
  · intro only comp member
    by_contra ambiguous
    obtain ⟨others, same, different⟩ :=
      exists_respelled spelled member ambiguous
    have split := components_intercalate (same.spelled spelled)
    have otherPadded : PaddedPath cipher (['/'].intercalate others) := by
      rw [PaddedPath, split]
      exact same.usuallyPadded padded
    have otherRead : decryptPath cipher (['/'].intercalate others) =
        some path := by
      rw [decryptPath_eq, split, ← same.decryptComponents, ← decryptPath_eq]
      exact read
    apply different
    rw [← split, only _ otherPadded otherRead]
  · intro unambiguous other otherPadded otherRead
    have same := sameBytes_of_path injective padded otherPadded read otherRead
    rw [← intercalate_components other,
      sameBytes_eq_of_unambiguous same spelled unambiguous,
      intercalate_components]

/-- Which texts are written back as they were, and which stored paths are the
only one of their plaintext path. -/
theorem canonical_spellings (text stored path : Path) (cipher : Hctr2) :
    ((∀ bytes, Base91.decode text = some (.ok bytes) →
        Base91.encode bytes = some text) ↔
      (Base91.Known (utf8 text) → Base91.Canonical text)) ∧
    (cipher.Injective → PaddedPath cipher stored →
      decryptPath cipher stored = some path →
      ((∀ other, PaddedPath cipher other →
          decryptPath cipher other = some path → other = stored) ↔
        ∀ comp ∈ components stored, Base91.Unambiguous comp)) :=
  ⟨Base91.reencodes_iff text, fun injective padded read =>
    only_stored_path_iff injective padded read⟩

theorem backwards_injective : backwards.Injective := by
  intro tweak left right plaintext first second
  have back := backwards_backwards first
  rw [backwards_backwards second] at back
  exact (Option.some.inj back).symm

/-- The stored name of `config` has a second spelling. -/
theorem canonical_spellings_of_config :
    ∃ other, other ≠ ['p', 'a', 'B', '2', 'h', '>', 'Q', 'C'] ++
        List.replicate 30 'A' ∧
      PaddedPath backwards other ∧
      decryptPath backwards other = some ['c', 'o', 'n', 'f', 'i', 'g'] := by
  obtain ⟨stored, storedDef⟩ : ∃ stored, stored =
    ['p', 'a', 'B', '2', 'h', '>', 'Q', 'C'] ++ List.replicate 30 'A' := ⟨_, rfl⟩
  have decoded : base91Decode stored = .ok
      ([103, 105, 102, 110, 111, 99] ++ List.replicate 26 0) := by
    rw [storedDef]
    decide +kernel
  have read : decryptPath backwards stored =
      some ['c', 'o', 'n', 'f', 'i', 'g'] := by
    rw [storedDef]
    decide +kernel
  have single : components stored = [stored] := by
    rw [storedDef]
    decide
  have padded : PaddedPath backwards stored := by
    rw [PaddedPath, single]
    refine ⟨?_, fun _ _ => trivial⟩
    intro name ciphertext plaintext accepted same decrypted
    have named := decryptComponents_of_path read
    have plain : components ['c', 'o', 'n', 'f', 'i', 'g'] =
        [['c', 'o', 'n', 'f', 'i', 'g']] := by decide
    rw [single, plain, decryptComponents, accepted] at named
    obtain rfl : name = ['c', 'o', 'n', 'f', 'i', 'g'] := by
      simpa [decryptComponents] using named
    rw [decoded] at same
    obtain rfl := Except.ok.inj same
    exact ⟨32, by decide, Option.some.inj (decrypted.symm.trans (by decide))⟩
  by_contra none
  have only := ((canonical_spellings [] _ _ backwards).2 backwards_injective
    padded read).mp
  rw [single] at only
  have unambiguous := only (fun other otherPadded otherRead => by
    by_contra different
    exact none ⟨other, storedDef ▸ different, otherPadded, otherRead⟩)
    stored (by simp)
  rw [storedDef] at unambiguous
  revert unambiguous
  decide +kernel

/-- `A` is decoded to a zero byte, which is written as `AA`. -/
theorem decoded_text_not_written_back :
    ¬ ∀ text bytes, Base91.decode text = some (.ok bytes) →
      Base91.encode bytes = some text := by
  intro inverse
  have decoded : Base91.decode ['A'] = some (.ok [0]) := by decide +kernel
  have written : Base91.encode [0] = some ['A', 'A'] := by decide +kernel
  have back := inverse _ _ decoded
  rw [written] at back
  exact absurd back (by decide)

end HfMount.Encryption
