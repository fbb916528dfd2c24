import Mathlib.Data.List.Basic
import Mathlib.Data.List.Infix
import Mathlib.Data.List.TakeWhile

/-!
# Slash-separated paths

A path is the text of its components, joined by `/`; the root is the empty
text.  `childPath` adds a component and `parentPath` removes the last one.  A
path lies `Within` another when it is that path or continues it after a slash,
and `rebase` moves everything within one path to another.
-/

namespace HfMount.SlashPath

abbrev Path := List Char

abbrev Name := List Char

instance : LawfulBEq Path := inferInstance

/-- A component: not empty and without a slash. -/
def ValidName (name : Name) : Prop := name ≠ [] ∧ '/' ∉ name

instance (name : Name) : Decidable (ValidName name) :=
  inferInstanceAs (Decidable (_ ∧ _))

def childPath (parent : Path) (name : Name) : Path :=
  if parent.isEmpty then name else parent ++ '/' :: name

/-- The text before the last slash; the root when there is none. -/
def parentPath (path : Path) : Path :=
  ((path.reverse.dropWhile (· ≠ '/')).drop 1).reverse

/-- `path` is `dir` or lies below it. -/
def Within (dir path : Path) : Prop := path = dir ∨ dir ++ ['/'] <+: path

instance (dir path : Path) : Decidable (Within dir path) :=
  inferInstanceAs (Decidable (_ ∨ _))

/-- Move what lies within `old` to the same place within `new`. -/
def rebase (old new path : Path) : Path :=
  if Within old path then new ++ path.drop old.length else path

/-! ## Children -/

theorem ValidName.ne_nil {name : Name} (valid : ValidName name) : name ≠ [] :=
  valid.1

@[simp] theorem childPath_nil (name : Name) : childPath [] name = name := rfl

theorem childPath_of_ne_nil {parent : Path} (nonempty : parent ≠ [])
    (name : Name) : childPath parent name = parent ++ '/' :: name := by
  cases parent with
  | nil => exact absurd rfl nonempty
  | cons => rfl

theorem childPath_ne_nil {name : Name} (valid : ValidName name)
    (parent : Path) : childPath parent name ≠ [] := by
  unfold childPath
  split
  · exact valid.1
  · simp

theorem length_lt_childPath {name : Name} (valid : ValidName name)
    (parent : Path) : parent.length < (childPath parent name).length := by
  have positive := List.length_pos_of_ne_nil valid.1
  unfold childPath
  split <;> rename_i root
  · simpa [List.isEmpty_iff.mp root] using positive
  · simp

theorem parentPath_childPath {name : Name} (valid : ValidName name)
    (parent : Path) : parentPath (childPath parent name) = parent := by
  have noSlash : ∀ char ∈ name.reverse, decide (char ≠ '/') = true := by
    intro char member
    have : char ≠ '/' := by
      rintro rfl
      exact valid.2 (List.mem_reverse.mp member)
    simpa using this
  unfold parentPath childPath
  split <;> rename_i root
  · rw [List.dropWhile_eq_nil_iff.mpr (by simpa using noSlash)]
    simpa using (List.isEmpty_iff.mp root).symm
  · rw [List.reverse_append, List.reverse_cons, List.append_assoc,
      List.dropWhile_append_of_pos (by simpa using noSlash)]
    simp

/-- A path determines its parent and its last component. -/
theorem childPath_injective {left right : Path} {leftName rightName : Name}
    (validLeft : ValidName leftName) (validRight : ValidName rightName)
    (same : childPath left leftName = childPath right rightName) :
    left = right ∧ leftName = rightName := by
  have parents : left = right := by
    rw [← parentPath_childPath validLeft left, same,
      parentPath_childPath validRight]
  subst parents
  refine ⟨rfl, ?_⟩
  unfold childPath at same
  split at same
  · exact same
  · simpa using same

/-! ## Subtrees -/

theorem within_refl (path : Path) : Within path path := Or.inl rfl

theorem within_iff {dir path : Path} :
    Within dir path ↔ ∃ rest, path = dir ++ rest ∧
      (rest = [] ∨ ∃ tail, rest = '/' :: tail) := by
  constructor
  · rintro (rfl | ⟨tail, rfl⟩)
    · exact ⟨[], by simp, Or.inl rfl⟩
    · exact ⟨'/' :: tail, by simp, Or.inr ⟨tail, rfl⟩⟩
  · rintro ⟨rest, rfl, rfl | ⟨tail, rfl⟩⟩
    · exact Or.inl (by simp)
    · exact Or.inr ⟨tail, by simp⟩

theorem Within.child {dir path : Path} (within : Within dir path)
    (nonempty : dir ≠ []) (name : Name) : Within dir (childPath path name) := by
  obtain ⟨rest, rfl, shape⟩ := within_iff.mp within
  have pathNonempty : dir ++ rest ≠ [] := by simp [nonempty]
  rw [childPath_of_ne_nil pathNonempty, within_iff]
  refine ⟨rest ++ '/' :: name, by simp, Or.inr ?_⟩
  rcases shape with rfl | ⟨tail, rfl⟩
  · exact ⟨name, rfl⟩
  · exact ⟨tail ++ '/' :: name, rfl⟩

theorem Within.length_le {dir path : Path} (within : Within dir path) :
    dir.length ≤ path.length := by
  obtain ⟨rest, rfl, _⟩ := within_iff.mp within
  simp

/-- Two paths that contain a third one contain one another. -/
theorem within_total {left right path : Path} (first : Within left path)
    (second : Within right path) : Within left right ∨ Within right left := by
  obtain ⟨rest, rfl, shape⟩ := within_iff.mp first
  obtain ⟨more, split, moreShape⟩ := within_iff.mp second
  have slash : ∀ {middle end₁ end₂ : Path}, end₁ = middle ++ end₂ →
      (end₁ = [] ∨ ∃ tail, end₁ = '/' :: tail) →
      middle = [] ∨ ∃ tail, middle = '/' :: tail := by
    intro middle end₁ end₂ same begins
    cases middle with
    | nil => exact Or.inl rfl
    | cons head middle =>
        rcases begins with rfl | ⟨tail, rfl⟩
        · simp at same
        · simp only [List.cons_append, List.cons.injEq] at same
          exact Or.inr ⟨middle, by rw [same.1]⟩
  rcases List.append_eq_append_iff.mp split with
    ⟨middle, rfl, tail⟩ | ⟨middle, rfl, tail⟩
  · exact Or.inl (within_iff.mpr ⟨middle, rfl, slash tail shape⟩)
  · exact Or.inr (within_iff.mpr ⟨middle, rfl, slash tail moreShape⟩)

/-- What lies within a proper path of a child lies within the parent. -/
theorem within_of_within_child {dir path : Path} {name : Name}
    (valid : ValidName name) (within : Within dir (childPath path name))
    (proper : childPath path name ≠ dir) : dir = [] ∨ Within dir path := by
  obtain ⟨rest, split, shape⟩ := within_iff.mp within
  rcases shape with rfl | ⟨tail, rfl⟩
  · exact absurd (by simpa using split) proper
  by_cases root : path = []
  · subst root
    rw [childPath_nil] at split
    exact absurd (by simp [split]) valid.2
  · right
    rw [childPath_of_ne_nil root] at split
    rcases List.append_eq_append_iff.mp split with
      ⟨middle, first, second⟩ | ⟨middle, first, second⟩
    · -- The name would contain the slash after `dir`.
      cases middle with
      | nil =>
          rw [List.append_nil] at first
          exact Or.inl first.symm
      | cons head middle =>
          simp only [List.cons_append, List.cons.injEq] at second
          obtain ⟨rfl, second⟩ := second
          exact absurd (by simp [second]) valid.2
    · cases middle with
      | nil =>
          rw [List.append_nil] at first
          exact Or.inl first
      | cons head middle =>
          simp only [List.cons_append, List.cons.injEq] at second
          obtain ⟨rfl, second⟩ := second
          exact within_iff.mpr ⟨'/' :: middle, first, Or.inr ⟨middle, rfl⟩⟩

/-! ## Moving a subtree -/

theorem rebase_of_within {old path : Path} (within : Within old path)
    (new : Path) : rebase old new path = new ++ path.drop old.length :=
  if_pos within

@[simp] theorem rebase_self (old new : Path) : rebase old new old = new := by
  rw [rebase_of_within (within_refl old), List.drop_length, List.append_nil]

theorem rebase_append {old rest : Path}
    (shape : rest = [] ∨ ∃ tail, rest = '/' :: tail) (new : Path) :
    rebase old new (old ++ rest) = new ++ rest := by
  rw [rebase_of_within (within_iff.mpr ⟨rest, rfl, shape⟩), List.drop_left]

theorem within_rebase {old path : Path} (within : Within old path)
    (new : Path) : Within new (rebase old new path) := by
  obtain ⟨rest, rfl, shape⟩ := within_iff.mp within
  rw [rebase_append shape]
  exact within_iff.mpr ⟨rest, rfl, shape⟩

theorem rebase_childPath {old new path : Path} (within : Within old path)
    (oldNonempty : old ≠ []) (newNonempty : new ≠ []) (name : Name) :
    rebase old new (childPath path name) =
      childPath (rebase old new path) name := by
  obtain ⟨rest, rfl, shape⟩ := within_iff.mp within
  rw [rebase_append shape, childPath_of_ne_nil (by simp [oldNonempty]),
    childPath_of_ne_nil (by simp [newNonempty]), List.append_assoc,
    List.append_assoc]
  apply rebase_append
  rcases shape with rfl | ⟨tail, rfl⟩
  · exact Or.inr ⟨name, rfl⟩
  · exact Or.inr ⟨tail ++ '/' :: name, rfl⟩

/-- Moving a subtree moves the subtree of each child along. -/
theorem rebase_of_child {old new path : Path} {name : Name}
    (within : Within (childPath old name) path) (oldNonempty : old ≠ [])
    (newNonempty : new ≠ []) :
    rebase (childPath old name) (childPath new name) path =
      rebase old new path := by
  obtain ⟨rest, rfl, shape⟩ := within_iff.mp within
  rw [rebase_append shape, childPath_of_ne_nil oldNonempty,
    childPath_of_ne_nil newNonempty, List.append_assoc, List.append_assoc,
    List.cons_append]
  exact (rebase_append (Or.inr ⟨name ++ rest, rfl⟩) new).symm

theorem rebase_injective {old new left right : Path}
    (withinLeft : Within old left) (withinRight : Within old right)
    (same : rebase old new left = rebase old new right) : left = right := by
  obtain ⟨rest, rfl, shape⟩ := within_iff.mp withinLeft
  obtain ⟨more, rfl, moreShape⟩ := within_iff.mp withinRight
  rw [rebase_append shape, rebase_append moreShape] at same
  rw [List.append_cancel_left same]

/-! ## Components -/

/-- The components of a path; the root has none. -/
def components (path : Path) : List Name :=
  if path.isEmpty then [] else path.splitOn '/'

@[simp] theorem components_nil : components [] = [] := rfl

theorem components_of_ne_nil {path : Path} (nonempty : path ≠ []) :
    components path = path.splitOn '/' := by
  rw [components, if_neg (by simpa using nonempty)]

/-- A path is its components, joined. -/
theorem intercalate_components (path : Path) :
    ['/'].intercalate (components path) = path := by
  by_cases root : path = []
  · subst root
    rfl
  · rw [components_of_ne_nil root, List.intercalate_splitOn]

theorem intercalate_ne_nil {names : List Name} (nonempty : names ≠ [])
    (valid : ∀ name ∈ names, ValidName name) :
    ['/'].intercalate names ≠ [] := by
  obtain ⟨first, rest, rfl⟩ := List.exists_cons_of_ne_nil nonempty
  have head := (valid first List.mem_cons_self).1
  cases rest with
  | nil => simpa using head
  | cons second rest => simp [List.intercalate_cons_cons]

theorem components_intercalate {names : List Name}
    (valid : ∀ name ∈ names, ValidName name) :
    components (['/'].intercalate names) = names := by
  by_cases none : names = []
  · subst none
    rfl
  · rw [components_of_ne_nil (intercalate_ne_nil none valid)]
    exact List.splitOn_intercalate '/'
      (fun name member => (valid name member).2) none

theorem components_childPath (dir : Path) {rel : Path} (nonempty : rel ≠ []) :
    components (childPath dir rel) = components dir ++ components rel := by
  by_cases root : dir = []
  · subst root
    simp
  · rw [childPath_of_ne_nil root, components_of_ne_nil (by simp),
      components_of_ne_nil root, components_of_ne_nil nonempty,
      List.splitOn_append_cons_self]

theorem components_injective {left right : Path}
    (same : components left = components right) : left = right := by
  rw [← intercalate_components left, same, intercalate_components]

/-- `path` continues `dir` by a path that is not empty. -/
def StrictlyBelow (dir path : Path) : Prop :=
  ∃ rel, rel ≠ [] ∧ path = childPath dir rel

theorem strictlyBelow_of_components {dir path : Path} {rest : List Name}
    (split : components path = components dir ++ rest) (some : rest ≠ [])
    (valid : ∀ name ∈ rest, ValidName name) : StrictlyBelow dir path := by
  have nonempty := intercalate_ne_nil some valid
  refine ⟨['/'].intercalate rest, nonempty, components_injective ?_⟩
  rw [components_childPath dir nonempty, components_intercalate valid, split]

end HfMount.SlashPath
