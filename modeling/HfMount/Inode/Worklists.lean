import HfMount.Inode.Subtree

/-!
# The worklists of a table

The guards of a subtree and the removal of one each work off a stack of
inodes.  In a table with the shape of a tree every such loop visits an inode
at most once, ends within as many visits as there are inodes, and comes to
what the walks of the table say.
-/

namespace HfMount.Inode

open Worklist

/-- There is local state that would be lost with the inode. -/
def InodeEntry.isBusy (entry : InodeEntry) : Bool :=
  entry.isDirty || entry.hasOpenHandles

namespace InodeTable

/-- The loop of `hasDirtyOrOpenDescendants`. -/
def dirtyOrOpenLoop (table : InodeTable) (fuel : Nat) (ino : Ino) :
    Option Bool :=
  search table.pushed (fun current => (table.get current).any (·.isBusy))
    fuel [ino]

/-- The loop of `hasCleanDescendants`, which starts below the inode. -/
def cleanLoop (table : InodeTable) (fuel : Nat) (ino : Ino) : Option Bool :=
  search table.pushed (fun current => (table.get current).any (!·.isDirty))
    fuel (table.pushed ino)

/-- `remove`, whose loop takes the children of an entry from the entry that it
has just dropped. -/
def removeLoop (table : InodeTable) (fuel : Nat) (ino : Ino) :
    Option (Option InodeEntry × InodeTable) :=
  match table.get ino with
  | none => some (none, table)
  | some entry =>
      (drain pushed dropEntry fuel
        ((table.dropEntry ino).detachFromParent entry.parent ino entry.kind)
        (entry.children.reverse.map (·.ino))).map fun removed =>
          (some entry, removed)

/-- The inode or a descendant is dirty or open. -/
def BusyBelow (table : InodeTable) (ino : Ino) : Prop :=
  ∃ lower entry, table.Below ino lower ∧ table.get lower = some entry ∧
    entry.isBusy = true

/-- A proper descendant is clean. -/
def CleanBelow (table : InodeTable) (ino : Ino) : Prop :=
  ∃ lower entry, Relation.TransGen table.Lists ino lower ∧
    table.get lower = some entry ∧ entry.isDirty = false

/-! ## What a loop visits -/

theorem pushed_dropEntry (table : InodeTable) {item other : Ino}
    (different : other ≠ item) :
    (table.dropEntry item).pushed other = table.pushed other := by
  unfold pushed
  rw [get_dropEntry, if_neg different]

/-- Some inode of a list has an entry of the kind looked for. -/
theorem any_get_iff {table : InodeTable} {inos : List Ino}
    {hit : InodeEntry → Bool} :
    (inos.any fun current => (table.get current).any hit) = true ↔
      ∃ lower entry, lower ∈ inos ∧ table.get lower = some entry ∧
        hit entry = true := by
  simp only [List.any_eq_true, Option.any_eq_true, exists_and_left]

/-- There are no more inodes than entries. -/
theorem length_le_values {table : InodeTable} {inos : List Ino}
    (once : inos.Nodup)
    (inTable : ∀ ino ∈ inos, ∃ entry, table.get ino = some entry) :
    inos.length ≤ table.values.length := by
  have keys : table.inodes.keys.length = table.values.length := by
    simp only [AList.keys, List.keys, values, List.length_map]
  rw [← keys]
  refine (List.subperm_of_subset once ?_).length_le
  intro ino member
  obtain ⟨entry, found⟩ := inTable ino member
  exact AList.lookup_isSome.mp (Option.isSome_of_eq_some found)

/-- A table that only loses inodes does not get longer. -/
theorem length_values_le {before after : InodeTable}
    (source : ∀ {ino entry}, after.get ino = some entry →
      ∃ old, before.get ino = some old) :
    after.values.length ≤ before.values.length := by
  have keys : after.inodes.keys.length = after.values.length := by
    simp only [AList.keys, List.keys, values, List.length_map]
  rw [← keys]
  apply length_le_values after.inodes.keys_nodup
  intro ino member
  obtain ⟨entry, found⟩ :=
    Option.isSome_iff_exists.mp (AList.lookup_isSome.mpr member)
  exact source found

theorem length_values_pos {table : InodeTable} {ino : Ino} {entry : InodeEntry}
    (found : table.get ino = some entry) : 0 < table.values.length :=
  List.length_pos_of_mem (mem_values.mpr ⟨ino, found⟩)

namespace Treelike

variable {table : InodeTable}

/-- No loop visits more inodes than there are. -/
theorem length_le_of_walk (tree : table.Treelike)
    (inhabited : 0 < table.values.length) {ino : Ino} {visited : List Ino}
    (walk : Walk table.pushed [ino] visited) :
    visited.length ≤ table.values.length := by
  cases found : table.get ino with
  | none =>
      have alone : visited.tail = [] := by
        have tail := walk.tail
        rw [pushed_of_missing found] at tail
        generalize visited.tail = rest at tail
        cases tail
        rfl
      have length := congrArg List.length alone
      simp only [List.length_tail, List.length_nil] at length
      omega
  | some entry =>
      apply length_le_values (tree.forest.nodup_of_walk walk)
      intro lower member
      obtain ⟨upper, start, leads⟩ := walk.mem_iff.mp member
      obtain rfl := List.mem_singleton.mp start
      exact tree.below found (leads_iff.mp leads)

/-! ## What the loops give -/

/-- The loop ends, and says what the walk of the table says. -/
theorem dirtyOrOpenLoop_eq (tree : table.Treelike)
    (inhabited : 0 < table.values.length) (ino : Ino) {fuel : Nat}
    (enough : table.values.length ≤ fuel) :
    table.dirtyOrOpenLoop fuel ino =
      some (table.hasDirtyOrOpenDescendants ino) := by
  have walk := tree.walk ino
  exact walk.search_eq _ ((tree.length_le_of_walk inhabited walk).trans enough)

theorem hasDirtyOrOpenDescendants_iff (tree : table.Treelike) {ino : Ino} :
    table.hasDirtyOrOpenDescendants ino = true ↔ table.BusyBelow ino := by
  unfold hasDirtyOrOpenDescendants
  refine any_get_iff.trans ?_
  simp only [tree.mem_descendants_iff]
  rfl

/-- The loop that starts with the children ends as well. -/
theorem cleanLoop_eq (tree : table.Treelike)
    (inhabited : 0 < table.values.length) (ino : Ino) {fuel : Nat}
    (enough : table.values.length ≤ fuel) :
    table.cleanLoop fuel ino =
      some ((table.descendants table.depthBound ino).tail.any fun current =>
        (table.get current).any (!·.isDirty)) := by
  have walk := tree.walk ino
  have shorter :=
    (List.tail_sublist (table.descendants table.depthBound ino)).length_le
  exact walk.tail.search_eq _
    (shorter.trans ((tree.length_le_of_walk inhabited walk).trans enough))

/-- Its walk visits the proper descendants. -/
theorem any_tail_descendants_iff (tree : table.Treelike) {ino : Ino} :
    ((table.descendants table.depthBound ino).tail.any fun current =>
        (table.get current).any (!·.isDirty)) = true ↔
      table.CleanBelow ino := by
  have proper : ∀ lower,
      lower ∈ (table.descendants table.depthBound ino).tail ↔
        Relation.TransGen table.Lists ino lower := by
    intro lower
    rw [(tree.walk ino).tail.mem_iff, Relation.TransGen.head'_iff]
    simp only [mem_pushed, leads_iff]
  refine any_get_iff.trans ?_
  simp only [proper, Bool.not_eq_true']
  rfl

/-- The loop of a removal takes each descendant out once, with the children
that it had before. -/
theorem removeLoop_eq (tree : table.Treelike) {ino : Ino} {entry : InodeEntry}
    (found : table.get ino = some entry)
    (attached : table.Lists entry.parent ino) {fuel : Nat}
    (enough : table.values.length ≤ fuel) :
    table.removeLoop fuel ino = some (some entry, table.remove ino) := by
  have same := fun {child : DirChild} (listed : child ∈ entry.children) =>
    tree.children_detached found attached listed
  unfold removeLoop InodeTable.remove
  rw [found]
  dsimp only
  generalize (table.dropEntry ino).detachFromParent entry.parent ino
    entry.kind = detached at same ⊢
  have inChildren : ∀ child ∈ entry.children.reverse.map (·.ino),
      ∃ name, ⟨child, name⟩ ∈ entry.children := by
    intro child member
    obtain ⟨⟨_, name⟩, listed, rfl⟩ := List.mem_map.mp member
    exact ⟨name, List.mem_reverse.mp listed⟩
  have walks : Walk table.pushed (entry.children.reverse.map (·.ino))
      ((entry.children.reverse.map (·.ino)).flatMap
        (table.descendants table.depthBound)) :=
    Walk.flatMap fun child _ => tree.walk child
  have whole : Walk table.pushed [ino]
      (ino :: (entry.children.reverse.map (·.ino)).flatMap
        (table.descendants table.depthBound)) := by
    apply Walk.visit
    rw [pushed_of_get found, List.append_nil]
    exact walks
  have once := (tree.forest.nodup_of_walk whole).of_cons
  have visits := tree.length_le_of_walk (length_values_pos found) whole
  have short := (Nat.le_succ _).trans (visits.trans enough)
  have unchanged : (entry.children.reverse.map (·.ino)).flatMap
        (detached.descendants table.depthBound) =
      (entry.children.reverse.map (·.ino)).flatMap
        (table.descendants table.depthBound) := by
    apply List.flatMap_congr
    intro child member
    obtain ⟨name, listed⟩ := inChildren child member
    exact descendants_congr (same listed)
  rw [unchanged]
  have detachedWalk := walks.congr fun lower member => by
    obtain ⟨child, inStack, inWalk⟩ := List.mem_flatMap.mp member
    obtain ⟨name, listed⟩ := inChildren child inStack
    exact pushed_congr (same listed lower (tree.mem_descendants_iff.mp inWalk))
  rw [detachedWalk.drain_eq once pushed_dropEntry short]
  rfl

end Treelike

/-! ## What a removal takes out -/

/-- What is cut off is what the path mapping loses. -/
structure TakesOut (table after : InodeTable) (parent child : Ino) : Prop
    extends CutsOff table after parent child where
  path : ∀ {path ino}, after.pathToInode path = some ino ↔
    table.pathToInode path = some ino ∧ ¬ table.Below child ino

theorem WellFormed.takesOut {table : InodeTable} (wf : table.WellFormed)
    {parent : Ino} {parentEntry : InodeEntry} {child : DirChild}
    (found : table.get parent = some parentEntry)
    (listed : child ∈ parentEntry.children) :
    table.TakesOut (table.remove child.ino) parent child.ino := by
  obtain ⟨entry, isChild⟩ := wf.child found listed
  obtain ⟨_, notRoot, _⟩ := wf.directory found listed
  have cutsOff := wf.treelike.cutsOff ⟨parentEntry, child.name, found, listed⟩
  have pruned := pruned_remove wf isChild.found notRoot isChild.live
  exact ⟨cutsOff, pruned.path⟩

theorem busyBelow_congr {table after : InodeTable} {upper : Ino}
    (same : ∀ {lower}, table.Below upper lower →
      after.get lower = table.get lower) :
    after.BusyBelow upper ↔ table.BusyBelow upper := by
  constructor
  · rintro ⟨lower, entry, below, found, busy⟩
    have below := (below_congr same).mp below
    exact ⟨lower, entry, below, (same below).symm.trans found, busy⟩
  · rintro ⟨lower, entry, below, found, busy⟩
    exact ⟨lower, entry, (below_congr same).mpr below,
      (same below).trans found, busy⟩

end InodeTable

end HfMount.Inode
