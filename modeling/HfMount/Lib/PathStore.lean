import Mathlib.Logic.Function.Basic
import Mathlib.Data.Option.Basic

/-!
# Files under paths

A directory tree leads from paths to files, and a file has its content whether
or not a path leads to it: an open handle keeps the file that a removal or a
rename has taken the path from.
-/

namespace HfMount

structure PathStore (Path Content : Type) where
  file : Path → Option Nat
  content : Nat → Content
  /-- No file has this number or a greater one. -/
  next : Nat

namespace PathStore

variable {Path Content : Type}

def write (store : PathStore Path Content) (file : Nat)
    (change : Content → Content) : PathStore Path Content :=
  { store with
    content := Function.update store.content file
      (change (store.content file)) }

/-- No file has two paths. -/
structure Separate (store : PathStore Path Content) : Prop where
  path_eq : ∀ {path other : Path} {file : Nat}, store.file path = some file →
    store.file other = some file → path = other
  used : ∀ {path : Path} {file : Nat}, store.file path = some file →
    file < store.next

/-- The file at the path is open: the one that was there, or an empty one. -/
structure Opens (store : PathStore Path Content) (path : Path) (number : Nat)
    (after : PathStore Path Content) : Prop where
  separate : after.Separate
  found : after.file path = some number
  elsewhere : ∀ {other : Path}, other ≠ path →
    after.file other = store.file other
  content : ∀ {other : Nat}, other ≠ number →
    after.content other = store.content other
  source : store.file path = some number ∨
    store.file path = none ∧ store.next = number
  used : number < after.next
  next : store.next ≤ after.next

section

variable {store after : PathStore Path Content} {path : Path} {number : Nat}

theorem Separate.write (separate : store.Separate) (file : Nat)
    (change : Content → Content) : (store.write file change).Separate :=
  ⟨separate.path_eq, separate.used⟩

theorem Separate.opens (separate : store.Separate)
    (found : store.file path = some number) : store.Opens path number store :=
  ⟨separate, found, fun _ => rfl, fun _ => rfl, Or.inl found,
    separate.used found, Nat.le_refl _⟩

/-- The file that was at the path is the one that is opened. -/
theorem Opens.number_eq {other : Nat}
    (opens : store.Opens path number after)
    (found : store.file path = some other) : other = number := by
  rcases opens.source with here | ⟨missing, _⟩
  · exact Option.some.inj (found.symm.trans here)
  · rw [missing] at found
    cases found

/-- A path of the file that is opened was one of an older file only when it is
the path itself. -/
theorem Opens.path_eq {other : Path} (opens : store.Opens path number after)
    (separate : store.Separate) (found : store.file other = some number) :
    other = path := by
  rcases opens.source with here | ⟨_, isNew⟩
  · exact separate.path_eq found here
  · have old := separate.used found
    omega

end

variable [DecidableEq Path]

/-- Open the file at a path, empty: it is truncated, or created. -/
def create (store : PathStore Path Content) (path : Path) (empty : Content) :
    Nat × PathStore Path Content :=
  match store.file path with
  | some file =>
      (file, { store with
        content := Function.update store.content file empty })
  | none =>
      (store.next,
        { file := Function.update store.file path (some store.next)
          content := Function.update store.content store.next empty
          next := store.next + 1 })

def remove (store : PathStore Path Content) (path : Path) :
    PathStore Path Content :=
  { store with file := Function.update store.file path none }

def rename (store : PathStore Path Content) (path newPath : Path) :
    PathStore Path Content :=
  { store with
    file := Function.update (Function.update store.file path none) newPath
      (store.file path) }

section

variable {store : PathStore Path Content} {path : Path}

/-- The path leads to the file that is opened, which is empty. -/
theorem create_spec (store : PathStore Path Content) (path : Path)
    (empty : Content) :
    (store.create path empty).2.file path =
        some (store.create path empty).1 ∧
      (store.create path empty).2.content (store.create path empty).1 =
        empty := by
  unfold create
  split
  · rename_i found
    simp [found]
  · simp

theorem create_file_of_ne {other : Path} (apart : other ≠ path)
    (empty : Content) :
    (store.create path empty).2.file other = store.file other := by
  unfold create
  split
  · rfl
  · simp [apart]

theorem create_content_of_ne {other : Nat} {empty : Content}
    (apart : other ≠ (store.create path empty).1) :
    (store.create path empty).2.content other = store.content other := by
  unfold create at apart ⊢
  split at apart <;> simp_all

/-- The file that is opened was at the path, or is new. -/
theorem create_source (store : PathStore Path Content) (path : Path)
    (empty : Content) :
    store.file path = some (store.create path empty).1 ∨
      store.file path = none ∧ store.next = (store.create path empty).1 := by
  unfold create
  split
  · rename_i found
    exact Or.inl found
  · rename_i missing
    exact Or.inr ⟨missing, rfl⟩

theorem next_le_create (store : PathStore Path Content) (path : Path)
    (empty : Content) : store.next ≤ (store.create path empty).2.next := by
  unfold create
  split
  · exact Nat.le_refl _
  · exact Nat.le_succ _

/-- A path that is left leads where it led before. -/
theorem file_of_remove {other : Path} {file : Nat}
    (found : (store.remove path).file other = some file) :
    other ≠ path ∧ store.file other = some file := by
  by_cases here : other = path
  · subst here
    simp [remove] at found
  · simp only [remove, Function.update_of_ne here] at found
    exact ⟨here, found⟩

theorem remove_file_of_ne {other : Path} (apart : other ≠ path) :
    (store.remove path).file other = store.file other :=
  Function.update_of_ne apart _ _

/-- A rename takes the place of what was there. -/
theorem rename_remove {newPath : Path} (apart : path ≠ newPath) :
    (store.remove newPath).rename path newPath = store.rename path newPath := by
  simp only [rename, remove, Function.update_of_ne apart]
  congr 1
  rw [Function.update_comm apart.symm, Function.update_idem]

namespace Separate

theorem create_fst_lt (separate : store.Separate) (path : Path)
    (empty : Content) :
    (store.create path empty).1 < (store.create path empty).2.next := by
  unfold create
  split
  · rename_i found
    exact separate.used found
  · exact Nat.lt_succ_self _

theorem create (separate : store.Separate) (path : Path) (empty : Content) :
    (store.create path empty).2.Separate := by
  unfold PathStore.create
  split
  · exact ⟨separate.path_eq, separate.used⟩
  constructor
  · intro left right file foundLeft foundRight
    by_cases isLeft : left = path
    · by_cases isRight : right = path
      · exact isLeft.trans isRight.symm
      · subst isLeft
        simp only [Function.update_self, Option.some.injEq] at foundLeft
        simp only [Function.update_of_ne isRight] at foundRight
        have := separate.used foundRight
        omega
    · simp only [Function.update_of_ne isLeft] at foundLeft
      by_cases isRight : right = path
      · subst isRight
        simp only [Function.update_self, Option.some.injEq] at foundRight
        have := separate.used foundLeft
        omega
      · simp only [Function.update_of_ne isRight] at foundRight
        exact separate.path_eq foundLeft foundRight
  · intro other file found
    by_cases here : other = path
    · subst here
      simp only [Function.update_self, Option.some.injEq] at found
      exact found ▸ Nat.lt_succ_self _
    · simp only [Function.update_of_ne here] at found
      exact Nat.lt_succ_of_lt (separate.used found)

theorem remove (separate : store.Separate) (path : Path) :
    (store.remove path).Separate := by
  exact ⟨fun left right => separate.path_eq (file_of_remove left).2
      (file_of_remove right).2,
    fun found => separate.used (file_of_remove found).2⟩

end Separate

/-- What the paths lead to after a rename. -/
theorem rename_file (store : PathStore Path Content)
    (path newPath other : Path) :
    (store.rename path newPath).file other =
      if other = newPath then store.file path
      else if other = path then none else store.file other := by
  simp only [rename, Function.update_apply]

theorem Separate.rename (separate : store.Separate) (path newPath : Path) :
    (store.rename path newPath).Separate := by
  have kept : ∀ {other : Path} {file : Nat},
      (store.rename path newPath).file other = some file →
        (other = newPath ∧ store.file path = some file) ∨
        (other ≠ path ∧ store.file other = some file) := by
    intro other file found
    rw [rename_file] at found
    split at found
    · rename_i here
      exact Or.inl ⟨here, found⟩
    · split at found
      · cases found
      · rename_i elsewhere
        exact Or.inr ⟨elsewhere, found⟩
  constructor
  · intro left right file foundLeft foundRight
    rcases kept foundLeft with ⟨isNew, moved⟩ | ⟨elsewhere, stays⟩
    · rcases kept foundRight with ⟨isNewRight, _⟩ | ⟨elsewhere, stays⟩
      · exact isNew.trans isNewRight.symm
      · exact absurd (separate.path_eq stays moved) elsewhere
    · rcases kept foundRight with ⟨_, moved⟩ | ⟨_, staysRight⟩
      · exact absurd (separate.path_eq stays moved) elsewhere
      · exact separate.path_eq stays staysRight
  · intro other file found
    rcases kept found with ⟨_, moved⟩ | ⟨_, stays⟩
    · exact separate.used moved
    · exact separate.used stays

/-! ## Opening -/

theorem Separate.opens_create (separate : store.Separate) (path : Path)
    (empty : Content) : store.Opens path (store.create path empty).1
      (store.create path empty).2 :=
  ⟨separate.create path empty, (store.create_spec path empty).1,
    fun apart => create_file_of_ne apart empty, create_content_of_ne,
    store.create_source path empty, separate.create_fst_lt path empty,
    store.next_le_create path empty⟩

end

end PathStore

end HfMount
