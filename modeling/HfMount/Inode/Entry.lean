import HfMount.Basic
import Mathlib.Data.List.Nodup
import Mathlib.Logic.Function.Basic

/-!
# Inode entries

One `InodeEntry` holds the metadata of a file, directory or symlink, the
children of a directory, and what is not yet on the remote: the dirty
generation and the old paths that the next flush has to delete.
-/

namespace HfMount.Inode

open SlashPath

inductive InodeKind where
  | file
  | directory
  | symlink
  deriving DecidableEq

structure DirChild where
  ino : Ino
  name : Name
  deriving DecidableEq

/-- Kernel references, recency and open handles of an inode. -/
structure EvictionState where
  nlookup : Nat
  lastTouched : Nat
  evictPending : Bool
  openHandles : Nat
  deriving DecidableEq

def EvictionState.empty : EvictionState :=
  { nlookup := 0
    lastTouched := 0
    evictPending := false
    openHandles := 0 }

structure InodeEntry where
  inode : Ino
  parent : Ino
  name : Name
  fullPath : Path
  kind : InodeKind
  size : Nat
  cipherSize : Option Nat
  needsSizeProbe : Bool
  mtime : Time
  mode : Nat
  uid : Nat
  gid : Nat
  atime : Time
  ctime : Time
  nlink : Nat
  symlinkTarget : Option Path
  xetHash : Option Hash
  stagingIsCurrent : Bool
  etag : Option Hash
  /-- Zero means clean; every mutation advances it. -/
  dirtyGeneration : Nat
  childrenLoadedAt : Option Time
  childrenFromRemote : Bool
  children : List DirChild
  childIndex : Name → Option Ino
  /-- Old remote paths that the next flush of this file deletes. -/
  pendingDeletes : List Path
  lastRevalidated : Option Time
  eviction : EvictionState

namespace InodeEntry

/-- The entry that `InodeTable::insert` builds. -/
def new (inode parent : Ino) (name : Name) (fullPath : Path)
    (kind : InodeKind) (size : Nat) (mtime : Time) (xetHash : Option Hash)
    (mode uid gid : Nat) (now : Time) (touchSeq : Nat) : InodeEntry :=
  { inode
    parent
    name
    fullPath
    kind
    size
    cipherSize := none
    needsSizeProbe := false
    mtime
    mode
    uid
    gid
    atime := mtime
    ctime := now
    nlink := match kind with
      | .directory => 2
      | _ => 1
    symlinkTarget := none
    xetHash
    stagingIsCurrent := false
    etag := none
    dirtyGeneration := 0
    childrenLoadedAt := none
    childrenFromRemote := false
    children := []
    childIndex := fun _ => none
    pendingDeletes := []
    lastRevalidated := some now
    eviction := { EvictionState.empty with lastTouched := touchSeq } }

def isDirty (entry : InodeEntry) : Bool := 0 < entry.dirtyGeneration

def hasOpenHandles (entry : InodeEntry) : Bool :=
  0 < entry.eviction.openHandles

def addChild (entry : InodeEntry) (ino : Ino) (name : Name) : InodeEntry :=
  { entry with
    childIndex := Function.update entry.childIndex name (some ino)
    children := entry.children ++ [{ ino, name }] }

/-- Removes the first child with this inode number. -/
def removeChildByIno (entry : InodeEntry) (ino : Ino) : InodeEntry :=
  match entry.children.find? (·.ino == ino) with
  | none => entry
  | some removed =>
      { entry with
        children := entry.children.eraseP (·.ino == ino)
        childIndex := Function.update entry.childIndex removed.name none }

/-- Removes the index entry of the name and the first child with the inode
number that the index gave. -/
def removeChildByName (entry : InodeEntry) (name : Name) : InodeEntry :=
  match entry.childIndex name with
  | none => entry
  | some ino =>
      { entry with
        childIndex := Function.update entry.childIndex name none
        children := entry.children.eraseP (·.ino == ino) }

def childrenLoaded (entry : InodeEntry) : Bool :=
  entry.childrenLoadedAt.isSome

/-- Advances the dirty generation, saturating at `u64::MAX`. -/
def setDirty (entry : InodeEntry) : InodeEntry :=
  { entry with dirtyGeneration := min (entry.dirtyGeneration + 1) u64Max }

/-- Clears the dirty flag if the generation is still the one of the
snapshot; the flag says whether it did. -/
def clearDirtyIf (entry : InodeEntry) (snapshotGeneration : Nat) :
    Bool × InodeEntry :=
  if entry.dirtyGeneration = snapshotGeneration then
    (true, { entry with dirtyGeneration := 0 })
  else (false, entry)

/-- What `applyCommit` records when the generation matched. -/
def recordCommit (entry : InodeEntry) (hash : Hash) (size : Nat) :
    InodeEntry :=
  { entry with
    xetHash := some hash
    stagingIsCurrent := true
    cipherSize := if entry.cipherSize.isSome then some size else none
    size := if entry.cipherSize.isSome then entry.size else size
    pendingDeletes := [] }

def applyCommit (entry : InodeEntry) (hash : Hash) (size generation : Nat)
    (now : Time) : InodeEntry :=
  let cleared := entry.clearDirtyIf generation
  let recorded :=
    if cleared.1 then cleared.2.recordCommit hash size else cleared.2
  { recorded with
    mtime := now
    ctime := now
    lastRevalidated := some now }

/-! ## The dirty generation -/

theorem isDirty_iff {entry : InodeEntry} :
    entry.isDirty = true ↔ 0 < entry.dirtyGeneration := by
  simp [isDirty]

theorem isDirty_eq_false_iff {entry : InodeEntry} :
    entry.isDirty = false ↔ entry.dirtyGeneration = 0 := by
  simp [isDirty]

theorem setDirty_pos (entry : InodeEntry) :
    0 < entry.setDirty.dirtyGeneration := by
  simp only [setDirty, u64Max]
  omega

/-- The fields of the entry after a commit whose generation matched. -/
theorem applyCommit_of_eq {entry : InodeEntry} {generation : Nat}
    (same : entry.dirtyGeneration = generation) (hash : Hash) (size : Nat)
    (now : Time) :
    entry.applyCommit hash size generation now =
      { entry.recordCommit hash size with
        dirtyGeneration := 0
        mtime := now
        ctime := now
        lastRevalidated := some now } := by
  simp [applyCommit, clearDirtyIf, same, recordCommit]

/-- A commit whose generation has moved on only stamps the times. -/
theorem applyCommit_of_ne {entry : InodeEntry} {generation : Nat}
    (advanced : entry.dirtyGeneration ≠ generation) (hash : Hash) (size : Nat)
    (now : Time) :
    entry.applyCommit hash size generation now =
      { entry with
        mtime := now
        ctime := now
        lastRevalidated := some now } := by
  simp [applyCommit, clearDirtyIf, advanced]

/-! ## Children and their index -/

/-- The index lists exactly the children, each inode number once. -/
structure Indexed (entry : InodeEntry) : Prop where
  nodup : (entry.children.map (·.ino)).Nodup
  index : ∀ name ino, entry.childIndex name = some ino ↔
    ⟨ino, name⟩ ∈ entry.children

theorem indexed_of_no_children {entry : InodeEntry}
    (children : entry.children = [])
    (index : ∀ name, entry.childIndex name = none) : entry.Indexed := by
  constructor
  · simp [children]
  · simp [children, index]

theorem Indexed.name_eq {entry : InodeEntry} (indexed : entry.Indexed)
    {ino : Ino} {left right : Name} (first : ⟨ino, left⟩ ∈ entry.children)
    (second : ⟨ino, right⟩ ∈ entry.children) : left = right := by
  have same := List.inj_on_of_nodup_map indexed.nodup first second rfl
  exact congrArg DirChild.name same

theorem Indexed.ino_eq {entry : InodeEntry} (indexed : entry.Indexed)
    {name : Name} {left right : Ino} (first : ⟨left, name⟩ ∈ entry.children)
    (second : ⟨right, name⟩ ∈ entry.children) : left = right := by
  have found := (indexed.index name left).mpr first
  rw [(indexed.index name right).mpr second] at found
  exact (Option.some.inj found).symm

/-- Erasing the one child with an inode number. -/
theorem mem_eraseP_ino {children : List DirChild}
    (nodup : (children.map (·.ino)).Nodup) (ino : Ino) (child : DirChild) :
    child ∈ children.eraseP (·.ino == ino) ↔
      child ∈ children ∧ child.ino ≠ ino := by
  induction children with
  | nil => simp
  | cons head tail ih =>
      obtain ⟨notLater, tailNodup⟩ := List.nodup_cons.mp nodup
      by_cases hit : head.ino = ino
      · rw [List.eraseP_cons_of_pos (by simp [hit])]
        constructor
        · intro member
          refine ⟨List.mem_cons_of_mem _ member, ?_⟩
          intro same
          have listed : head.ino ∈ tail.map (·.ino) :=
            List.mem_map.mpr ⟨child, member, same.trans hit.symm⟩
          exact notLater listed
        · rintro ⟨member, other⟩
          rcases List.mem_cons.mp member with rfl | later
          · exact absurd hit other
          · exact later
      · have inTail := ih tailNodup
        rw [List.eraseP_cons_of_neg (by simp [hit]), List.mem_cons,
          List.mem_cons, inTail]
        constructor
        · rintro (rfl | ⟨later, other⟩)
          · exact ⟨Or.inl rfl, hit⟩
          · exact ⟨Or.inr later, other⟩
        · rintro ⟨rfl | later, other⟩
          · exact Or.inl rfl
          · exact Or.inr ⟨later, other⟩

theorem mem_addChild {entry : InodeEntry} {ino : Ino} {name : Name}
    {child : DirChild} :
    child ∈ (entry.addChild ino name).children ↔
      child ∈ entry.children ∨ child = ⟨ino, name⟩ := by
  simp [addChild]

theorem nodup_addChild {entry : InodeEntry}
    (nodup : (entry.children.map (·.ino)).Nodup) {ino : Ino} (name : Name)
    (fresh : ∀ child ∈ entry.children, child.ino ≠ ino) :
    ((entry.addChild ino name).children.map (·.ino)).Nodup := by
  simp only [addChild, List.map_append, List.map_cons, List.map_nil]
  refine List.nodup_append.mpr ⟨nodup, by simp, ?_⟩
  intro other member last single
  obtain ⟨child, listed, rfl⟩ := List.mem_map.mp member
  obtain rfl := List.mem_singleton.mp single
  exact fresh child listed

theorem Indexed.addChild {entry : InodeEntry} (indexed : entry.Indexed)
    {ino : Ino} {name : Name} (freshName : entry.childIndex name = none)
    (freshIno : ∀ child ∈ entry.children, child.ino ≠ ino) :
    (entry.addChild ino name).Indexed := by
  constructor
  · exact nodup_addChild indexed.nodup name freshIno
  · intro other target
    rw [mem_addChild]
    simp only [InodeEntry.addChild]
    by_cases same : other = name
    · subst same
      rw [Function.update_self]
      constructor
      · intro found
        exact Or.inr (by rw [Option.some.inj found])
      · rintro (listed | new)
        · rw [(indexed.index other target).mpr listed] at freshName
          cases freshName
        · rw [(DirChild.mk.inj new).1]
    · rw [Function.update_of_ne same, indexed.index]
      constructor
      · exact Or.inl
      · rintro (listed | new)
        · exact listed
        · exact absurd (DirChild.mk.inj new).2 same

theorem mem_removeChildByName {entry : InodeEntry} (indexed : entry.Indexed)
    {name : Name} {child : DirChild} :
    child ∈ (entry.removeChildByName name).children ↔
      child ∈ entry.children ∧ child.name ≠ name := by
  unfold removeChildByName
  split <;> rename_i found
  · constructor
    · intro member
      refine ⟨member, ?_⟩
      rintro rfl
      rw [(indexed.index child.name child.ino).mpr member] at found
      cases found
    · exact And.left
  · rename_i ino
    have listed := (indexed.index name ino).mp found
    dsimp only
    rw [mem_eraseP_ino indexed.nodup]
    refine and_congr_right fun member => not_congr ?_
    constructor
    · intro same
      obtain ⟨childIno, childName⟩ := child
      obtain rfl : childIno = ino := same
      exact indexed.name_eq member listed
    · intro same
      obtain ⟨childIno, childName⟩ := child
      obtain rfl : childName = name := same
      exact indexed.ino_eq member listed

theorem Indexed.removeChildByName {entry : InodeEntry}
    (indexed : entry.Indexed) (name : Name) :
    (entry.removeChildByName name).Indexed := by
  constructor
  · unfold InodeEntry.removeChildByName
    split
    · exact indexed.nodup
    · exact indexed.nodup.sublist ((List.eraseP_sublist).map _)
  · intro other target
    rw [mem_removeChildByName indexed, ← indexed.index]
    unfold InodeEntry.removeChildByName
    split <;> rename_i found
    · constructor
      · intro listed
        refine ⟨listed, ?_⟩
        rintro rfl
        rw [found] at listed
        cases listed
      · exact And.left
    · dsimp only
      by_cases same : other = name <;> simp [same]

theorem mem_removeChildByIno {entry : InodeEntry}
    (nodup : (entry.children.map (·.ino)).Nodup) {ino : Ino}
    {child : DirChild} :
    child ∈ (entry.removeChildByIno ino).children ↔
      child ∈ entry.children ∧ child.ino ≠ ino := by
  unfold removeChildByIno
  split <;> rename_i found
  · constructor
    · intro member
      refine ⟨member, fun same => ?_⟩
      exact List.find?_eq_none.mp found child member (by simp [same])
    · exact And.left
  · exact mem_eraseP_ino nodup ino child

theorem nodup_removeChildByIno {entry : InodeEntry}
    (nodup : (entry.children.map (·.ino)).Nodup) (ino : Ino) :
    ((entry.removeChildByIno ino).children.map (·.ino)).Nodup := by
  unfold removeChildByIno
  split
  · exact nodup
  · exact nodup.sublist ((List.eraseP_sublist).map _)

theorem Indexed.removeChildByIno {entry : InodeEntry}
    (indexed : entry.Indexed) (ino : Ino) :
    (entry.removeChildByIno ino).Indexed := by
  constructor
  · exact nodup_removeChildByIno indexed.nodup ino
  · intro name target
    rw [mem_removeChildByIno indexed.nodup, ← indexed.index]
    unfold InodeEntry.removeChildByIno
    split <;> rename_i found
    · constructor
      · intro listed
        refine ⟨listed, fun same => ?_⟩
        have member := (indexed.index name target).mp listed
        exact List.find?_eq_none.mp found _ member (by simpa using same)
      · exact And.left
    · rename_i removed
      have listed := List.mem_of_find?_eq_some found
      have hit : removed.ino = ino := by
        simpa using List.find?_some found
      dsimp only
      by_cases same : name = removed.name
      · subst same
        rw [Function.update_self]
        constructor
        · intro absent
          cases absent
        · rintro ⟨listedTarget, other⟩
          have member := (indexed.index removed.name target).mp listedTarget
          exact absurd ((indexed.ino_eq member listed).trans hit) other
      · rw [Function.update_of_ne same]
        constructor
        · intro listedTarget
          refine ⟨listedTarget, ?_⟩
          rintro rfl
          have member := (indexed.index name target).mp listedTarget
          subst hit
          exact same (indexed.name_eq member listed)
        · exact And.left

end InodeEntry

end HfMount.Inode
