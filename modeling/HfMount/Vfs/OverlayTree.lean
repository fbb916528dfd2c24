import HfMount.Lib.PathTree
import HfMount.Vfs.Rename
import Mathlib.Data.Option.Basic

/-!
# The backing directory of an overlay

The backing is a directory tree on the local disk.  Each operation either fails
with the error number of the system call or does its work; the creation of
parent directories may get part of the way.  Files and directories have
numbers of their own, so that a path is known to lead to the same one.
-/

namespace HfMount.Vfs

open SlashPath Inode

/-- A symlink may be on the disk, although the overlay makes none. -/
structure DiskNode where
  kind : InodeKind
  number : Nat
  deriving DecidableEq

structure OverlayBacking where
  dir : PathTree DiskNode
  nextNumber : Nat

namespace OverlayBacking

variable {backing after : OverlayBacking} {path other : Path} {kind : InodeKind}

/-- The root is always there. -/
def kindAt (backing : OverlayBacking) (path : Path) : Option InodeKind :=
  if path = [] then some .directory else (backing.dir.node path).map (·.kind)

def pathExists (backing : OverlayBacking) (path : Path) : Bool :=
  (backing.kindAt path).any (· ≠ .symlink)

def add (backing : OverlayBacking) (path : Path) (kind : InodeKind) :
    OverlayBacking :=
  { dir := backing.dir.insert path ⟨kind, backing.nextNumber⟩
    nextNumber := backing.nextNumber + 1 }

/-- A new node needs a directory above it. -/
def addIn (backing : OverlayBacking) (path : Path) (kind : InodeKind) :
    Option Errno × OverlayBacking :=
  match backing.kindAt (parentPath path) with
  | some .directory => (none, backing.add path kind)
  | some _ => (some .enotdir, backing)
  | none => (some .enoent, backing)

def createDir (backing : OverlayBacking) (path : Path) :
    Option Errno × OverlayBacking :=
  if (backing.kindAt path).isSome then (some .eexist, backing)
  else backing.addIn path .directory

/-- `create_dir_all`: the directory is made after those above it. -/
def createDirAll (backing : OverlayBacking) :
    Nat → Path → Option Errno × OverlayBacking
  | 0, _ => (none, backing)
  | bound + 1, path =>
      if backing.kindAt path = some .directory then (none, backing)
      else
        match backing.createDir path with
        | (some .enoent, _) =>
            match backing.createDirAll bound (parentPath path) with
            | (none, above) => above.createDir path
            | (some errno, above) => (some errno, above)
        | made => made

def createParentDirs (backing : OverlayBacking) (path : Path) :
    Option Errno × OverlayBacking :=
  backing.createDirAll path.length (parentPath path)

/-- `open_file` with `create` and `truncate`. -/
def openCreate (backing : OverlayBacking) (path : Path) :
    Option Errno × OverlayBacking :=
  match backing.kindAt path with
  | some .file => (none, backing)
  | some .directory => (some .eisdir, backing)
  | some .symlink => (some .einval, backing)
  | none => backing.addIn path .file

def removeDir (backing : OverlayBacking) (path : Path) :
    Option Errno × OverlayBacking :=
  match backing.dir.node path with
  | none => (some .enoent, backing)
  | some node =>
      if node.kind ≠ .directory then (some .enotdir, backing)
      else if backing.dir.isLeaf path then
        (none, { backing with dir := backing.dir.erase path })
      else (some .enotempty, backing)

/-- Why a node of this kind cannot take the place of what is at the path, which
has to be empty. -/
def replaceConflict (backing : OverlayBacking) (kind : InodeKind)
    (path : Path) : Option Errno :=
  let unlike : Option Errno :=
    match backing.kindAt path with
    | none =>
        if backing.kindAt (parentPath path) = some .directory then none
        else some .enoent
    | some .directory => if kind = .directory then none else some .eisdir
    | some _ => if kind = .directory then some .enotdir else none
  unlike <|> if backing.dir.isLeaf path then none else some .enotempty

def rename (backing : OverlayBacking) (old new : Path) :
    Option Errno × OverlayBacking :=
  match backing.dir.node old with
  | none => (some .enoent, backing)
  | some node =>
      if old = new then (none, backing)
      else if Within old new then (some .einval, backing)
      else if Within new old then (some .enotempty, backing)
      else
        match backing.replaceConflict node.kind new with
        | some errno => (some errno, backing)
        | none => (none, { backing with dir := backing.dir.move old new })

/-! ## What the operations add -/

theorem kindAt_of_node {node : DiskNode} (nonempty : path ≠ [])
    (found : backing.dir.node path = some node) :
    backing.kindAt path = some node.kind := by
  rw [kindAt, if_neg nonempty, found]
  rfl

theorem node_of_kindAt (nonempty : path ≠ [])
    (found : backing.kindAt path = some kind) :
    ∃ node, backing.dir.node path = some node ∧ node.kind = kind := by
  rw [kindAt, if_neg nonempty] at found
  exact Option.map_eq_some_iff.mp found

theorem kindAt_of_grows (grows : backing.dir.Grows after.dir)
    (found : backing.kindAt path = some kind) :
    after.kindAt path = some kind := by
  by_cases root : path = []
  · subst root
    exact found
  · obtain ⟨node, foundNode, rfl⟩ := node_of_kindAt root found
    exact kindAt_of_node root (grows path node foundNode)

theorem addIn_spec (free : backing.kindAt path = none) (kind : InodeKind) :
    backing.dir.Grows (backing.addIn path kind).2.dir ∧
      ((backing.addIn path kind).1 = none →
        (backing.addIn path kind).2.kindAt path = some kind) := by
  have nonempty : path ≠ [] := by
    rintro rfl
    cases free
  have noNode : backing.dir.node path = none := by
    rw [kindAt, if_neg nonempty] at free
    exact Option.map_eq_none_iff.mp free
  unfold addIn
  split
  · refine ⟨PathTree.grows_insert noNode _, fun _ => ?_⟩
    simp [kindAt, nonempty, add]
  · exact ⟨.refl _, fun ok => by cases ok⟩
  · exact ⟨.refl _, fun ok => by cases ok⟩

theorem createDir_spec (backing : OverlayBacking) (path : Path) :
    backing.dir.Grows (backing.createDir path).2.dir ∧
      ((backing.createDir path).1 = none →
        (backing.createDir path).2.kindAt path = some .directory) := by
  unfold createDir
  split <;> rename_i taken
  · exact ⟨.refl _, fun ok => by cases ok⟩
  · exact addIn_spec (Option.not_isSome_iff_eq_none.mp taken) _

theorem grows_createDirAll (backing : OverlayBacking) (bound : Nat)
    (path : Path) :
    backing.dir.Grows (backing.createDirAll bound path).2.dir := by
  induction bound generalizing path with
  | zero => exact .refl _
  | succ bound ih =>
      unfold createDirAll
      split
      · exact .refl _
      · split
        · have above := ih (parentPath path)
          split <;> rename_i result
          · rw [result] at above
            exact above.trans (createDir_spec _ path).1
          · rw [result] at above
            exact above
        · exact (createDir_spec backing path).1

theorem grows_createParentDirs (backing : OverlayBacking) (path : Path) :
    backing.dir.Grows (backing.createParentDirs path).2.dir :=
  grows_createDirAll backing _ _

theorem openCreate_spec (backing : OverlayBacking) (path : Path) :
    backing.dir.Grows (backing.openCreate path).2.dir ∧
      ((backing.openCreate path).1 = none →
        (backing.openCreate path).2.kindAt path = some .file) := by
  unfold openCreate
  split <;> rename_i found
  · exact ⟨.refl _, fun _ => found⟩
  · exact ⟨.refl _, fun ok => by cases ok⟩
  · exact ⟨.refl _, fun ok => by cases ok⟩
  · exact addIn_spec found _

/-! ## What the operations take away -/

/-- Only the directory itself goes. -/
theorem kindAt_removeDir {other : Path}
    (removed : backing.removeDir path = (none, after)) (different : other ≠ path) :
    after.kindAt other = backing.kindAt other := by
  unfold removeDir at removed
  split at removed
  · cases removed
  · split at removed
    · cases removed
    · split at removed
      · obtain rfl := (Prod.mk.inj removed).2
        simp [kindAt, different]
      · cases removed

/-- The source, and that it may take the place of what is at the new path. -/
structure Replaces (backing : OverlayBacking) (old new : Path)
    (node : DiskNode) : Prop where
  source : backing.dir.node old = some node
  conflict : backing.replaceConflict node.kind new = none

theorem replaceConflict_eq_none
    (allowed : backing.replaceConflict kind path = none) :
    backing.dir.isLeaf path = true ∧ ∀ existing,
      backing.kindAt path = some existing →
        (existing = .directory ↔ kind = .directory) := by
  unfold replaceConflict at allowed
  dsimp only at allowed
  obtain ⟨alike, empty⟩ := (Option.orElse_eq_none _ _).mp allowed
  refine ⟨?_, ?_⟩
  · by_contra filled
    rw [if_neg filled] at empty
    cases empty
  · intro existing found
    rw [found] at alike
    cases existing <;> simpa using alike

/-- Everything at the old path moves, in the place of what may be replaced. -/
theorem moves_rename {old new : Path}
    (renamed : backing.rename old new = (none, after)) :
    backing.dir.Moves after.dir old new ∧
      (old = new ∨ ∃ node, backing.Replaces old new node) := by
  unfold rename at renamed
  split at renamed <;> rename_i source
  · cases renamed
  · split at renamed <;> rename_i same
    · obtain rfl := (Prod.mk.inj renamed).2
      subst same
      exact ⟨PathTree.moves_self _ _, Or.inl rfl⟩
    · split at renamed
      · cases renamed
      · split at renamed
        · cases renamed
        · split at renamed <;> rename_i conflict
          · cases renamed
          · obtain rfl := (Prod.mk.inj renamed).2
            exact ⟨PathTree.moves_move _ _ _, Or.inr ⟨_, source, conflict⟩⟩

end OverlayBacking

end HfMount.Vfs
