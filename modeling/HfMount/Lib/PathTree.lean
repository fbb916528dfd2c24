import HfMount.Lib.SlashPath
import Mathlib.Logic.Function.Basic

/-!
# Trees of named nodes

A tree gives a node to some paths.  It knows finitely many paths, so that what
is below a path can be looked for.  Moving a path takes along everything below
it and puts it in the place of what was at the new path.
-/

namespace HfMount.SlashPath

structure PathTree (Node : Type) where
  node : Path → Option Node
  /-- The paths that may have a node. -/
  paths : List Path
  covered : ∀ path, (node path).isSome → path ∈ paths

theorem rebase_rebase {old new path : Path} (within : Within new path) :
    rebase old new (rebase new old path) = path := by
  obtain ⟨rest, rfl, shape⟩ := within_iff.mp within
  rw [rebase_append shape, rebase_append shape]

theorem rebase_same (path other : Path) : rebase path path other = other := by
  by_cases within : Within path other
  · obtain ⟨rest, rfl, shape⟩ := within_iff.mp within
    exact rebase_append shape path
  · exact if_neg within

namespace PathTree

variable {Node : Type} {tree after : PathTree Node} {path other : Path}

def empty : PathTree Node where
  node _ := none
  paths := []
  covered := nofun

def insert (tree : PathTree Node) (path : Path) (value : Node) :
    PathTree Node where
  node := Function.update tree.node path (some value)
  paths := path :: tree.paths
  covered := by
    intro other found
    by_cases same : other = path
    · exact same ▸ List.mem_cons_self
    · rw [Function.update_of_ne same] at found
      exact List.mem_cons_of_mem _ (tree.covered other found)

def erase (tree : PathTree Node) (path : Path) : PathTree Node where
  node := Function.update tree.node path none
  paths := tree.paths
  covered := by
    intro other found
    by_cases same : other = path
    · rw [same, Function.update_self] at found
      cases found
    · rw [Function.update_of_ne same] at found
      exact tree.covered other found

/-- Nothing is below the path. -/
def isLeaf (tree : PathTree Node) (path : Path) : Bool :=
  tree.paths.all fun other =>
    !(decide (Within path other) && decide (other ≠ path)) ||
      (tree.node other).isNone

/-- What is at `old` and below it goes to `new`, and what was there goes. -/
def move (tree : PathTree Node) (old new : Path) : PathTree Node where
  node path :=
    if Within new path then tree.node (rebase new old path)
    else if Within old path then none
    else tree.node path
  paths := tree.paths.map (rebase old new) ++ tree.paths
  covered := by
    intro path found
    split at found <;> rename_i inside
    · apply List.mem_append_left
      rw [← rebase_rebase inside]
      exact List.mem_map_of_mem (tree.covered _ found)
    · split at found
      · cases found
      · exact List.mem_append_right _ (tree.covered _ found)

@[simp] theorem node_insert (tree : PathTree Node) (path other : Path)
    (value : Node) : (tree.insert path value).node other =
      if other = path then some value else tree.node other :=
  Function.update_apply _ _ _ _

@[simp] theorem node_erase (tree : PathTree Node) (path other : Path) :
    (tree.erase path).node other =
      if other = path then none else tree.node other :=
  Function.update_apply _ _ _ _

theorem isLeaf_iff : tree.isLeaf path = true ↔
    ∀ other, Within path other → other ≠ path → tree.node other = none := by
  simp only [isLeaf, List.all_eq_true, Bool.or_eq_true, Bool.not_eq_true',
    Bool.and_eq_false_iff, decide_eq_false_iff_not, ne_eq, not_not]
  constructor
  · intro leaf other within apart
    cases found : tree.node other with
    | none => rfl
    | some value =>
        have listed := tree.covered other (by simp [found])
        rcases leaf other listed with (outside | same) | absent
        · exact absurd within outside
        · exact absurd same apart
        · simp [found] at absent
  · intro none other _
    by_cases within : Within path other
    · by_cases same : other = path
      · exact Or.inl (Or.inr same)
      · right
        rw [none other within same]
        rfl
    · exact Or.inl (Or.inl within)

/-- The nodes that were there are still there. -/
def Grows (tree after : PathTree Node) : Prop :=
  ∀ path value, tree.node path = some value → after.node path = some value

theorem Grows.refl (tree : PathTree Node) : tree.Grows tree :=
  fun _ _ found => found

theorem Grows.trans {later : PathTree Node} (first : tree.Grows after)
    (second : after.Grows later) : tree.Grows later :=
  fun path value found => second path value (first path value found)

theorem grows_insert (free : tree.node path = none) (value : Node) :
    tree.Grows (tree.insert path value) := by
  intro other present found
  have apart : other ≠ path := by
    rintro rfl
    rw [free] at found
    cases found
  rw [node_insert, if_neg apart]
  exact found

/-- What is at `old` and below it is at `new` and below, and what is at neither
place stays. -/
structure Moves (tree after : PathTree Node) (old new : Path) : Prop where
  moved : ∀ path, Within old path →
    after.node (rebase old new path) = tree.node path
  apart : ∀ path, ¬ Within old path → ¬ Within new path →
    after.node path = tree.node path

theorem moves_self (tree : PathTree Node) (path : Path) :
    tree.Moves tree path path := by
  refine ⟨fun other _ => ?_, fun _ _ _ => rfl⟩
  rw [rebase_same]

theorem moves_move (tree : PathTree Node) (old new : Path) :
    tree.Moves (tree.move old new) old new := by
  refine ⟨?_, ?_⟩
  · intro path within
    simp only [move, if_pos (within_rebase within new), rebase_rebase within]
  · intro path notOld notNew
    simp only [move, if_neg notNew, if_neg notOld]

end PathTree

end HfMount.SlashPath
