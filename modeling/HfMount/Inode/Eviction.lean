import HfMount.Inode.Subtree
import Mathlib.Data.List.Dedup

/-!
# Evicting a batch of inodes

`evictBatchIfSafe` drops clean, closed files that the kernel has forgotten.
It takes them out of the index of their directories one by one, and out of the
lists of children in one pass for each directory.
-/

namespace HfMount.Inode

open SlashPath

/-- The check that `evictBatchIfSafe` repeats for each candidate. -/
def InodeEntry.isEvictable (entry : InodeEntry) : Bool :=
  entry.kind = .file && entry.eviction.nlookup == 0 &&
    entry.eviction.openHandles == 0 && !entry.isDirty &&
    entry.pendingDeletes.isEmpty && decide (0 < entry.nlink)

namespace InodeTable

/-- One inode leaves the table and the index of its directory. -/
def dropEvicted (table : InodeTable) (entry : InodeEntry) : InodeTable :=
  ((table.erase entry.inode).removePath entry.fullPath).modify entry.parent
    fun parentEntry =>
      { parentEntry with
        childIndex := Function.update parentEntry.childIndex entry.name none }

/-- The children of one directory, without the evicted ones. -/
def retainChildren (evicted : List InodeEntry) (table : InodeTable)
    (parent : Ino) : InodeTable :=
  table.modify parent fun parentEntry =>
    { parentEntry with
      children := parentEntry.children.filter fun child =>
        !evicted.any fun entry =>
          decide (entry.parent = parent) && decide (entry.inode = child.ino)
      childrenLoadedAt := none }

def evictBatchIfSafe (table : InodeTable) (inos : List Ino) :
    List Ino × InodeTable :=
  let evicted := (inos.dedup.filterMap table.get).filter (·.isEvictable)
  let dropped := evicted.foldl dropEvicted table
  (evicted.map (·.inode),
    (evicted.map (·.parent)).dedup.foldl (retainChildren evicted) dropped)

/-! ## Lookups after the two passes -/

/-- The index of a directory without the names of the evicted children. -/
def forgetNames (evicted : List InodeEntry) (parent : Ino)
    (index : Name → Option Ino) (name : Name) : Option Ino :=
  if evicted.any fun entry =>
      decide (entry.parent = parent) && decide (entry.name = name) then none
  else index name

theorem forgetNames_cons (entry : InodeEntry) (evicted : List InodeEntry)
    (parent : Ino) (index : Name → Option Ino) :
    forgetNames evicted parent (if parent = entry.parent then
        Function.update index entry.name none else index) =
      forgetNames (entry :: evicted) parent index := by
  funext name
  unfold forgetNames
  rw [List.any_cons]
  by_cases here : parent = entry.parent
  · rw [if_pos here]
    by_cases named : name = entry.name
    · subst named
      simp [here]
    · simp [here, named, Ne.symm named, Function.update_of_ne]
  · simp [here, Ne.symm here]

theorem get_dropEvicted (table : InodeTable) (entry : InodeEntry)
    (other : Ino) :
    (table.dropEvicted entry).get other =
      if other = entry.inode then none
      else (table.get other).map fun otherEntry =>
        { otherEntry with
          childIndex := if other = entry.parent then
              Function.update otherEntry.childIndex entry.name none
            else otherEntry.childIndex } := by
  unfold dropEvicted
  rw [get_modify, get_removePath, get_removePath, get_erase, get_erase]
  by_cases isParent : other = entry.parent
  · subst isParent
    simp only [if_true]
    split <;> rfl
  · simp only [if_neg isParent]
    split
    · rfl
    · exact Option.map_id'.symm

theorem get_foldl_dropEvicted (evicted : List InodeEntry) (table : InodeTable)
    (other : Ino) :
    (evicted.foldl dropEvicted table).get other =
      if other ∈ evicted.map (·.inode) then none
      else (table.get other).map fun otherEntry =>
        { otherEntry with
          childIndex := forgetNames evicted other otherEntry.childIndex } := by
  induction evicted generalizing table with
  | nil =>
      rw [List.foldl_nil, List.map_nil, if_neg List.not_mem_nil]
      exact Option.map_id'.symm
  | cons entry evicted ih =>
      rw [List.foldl_cons, ih, get_dropEvicted, List.map_cons]
      by_cases later : other ∈ evicted.map (·.inode)
      · rw [if_pos later, if_pos (List.mem_cons_of_mem _ later)]
      rw [if_neg later]
      by_cases here : other = entry.inode
      · rw [if_pos here, if_pos (here ▸ List.mem_cons_self)]
        rfl
      · have absent : other ∉ entry.inode :: evicted.map (·.inode) := by
          simp [here, later]
        rw [if_neg here, if_neg absent, Option.map_map]
        congr 1
        funext otherEntry
        simp only [Function.comp_apply, forgetNames_cons]

theorem get_foldl_retainChildren (evicted : List InodeEntry)
    {parents : List Ino} (nodup : parents.Nodup) (table : InodeTable)
    (other : Ino) :
    (parents.foldl (retainChildren evicted) table).get other =
      if other ∈ parents then
        (retainChildren evicted table other).get other
      else table.get other := by
  -- What a pass leaves of a directory depends on that directory alone.
  have alone : ∀ left right : InodeTable, left.get other = right.get other →
      (retainChildren evicted left other).get other =
        (retainChildren evicted right other).get other := by
    intro left right same
    unfold retainChildren
    rw [get_modify left, get_modify right, same]
  induction parents generalizing table with
  | nil => rw [List.foldl_nil, if_neg List.not_mem_nil]
  | cons parent parents ih =>
      obtain ⟨notLater, tailNodup⟩ := List.nodup_cons.mp nodup
      rw [List.foldl_cons, ih tailNodup]
      by_cases here : other = parent
      · subst here
        rw [if_neg notLater, if_pos List.mem_cons_self]
      · have same : (retainChildren evicted table parent).get other =
            table.get other := get_modify_of_ne _ here _
        simp only [List.mem_cons, here, false_or]
        split
        · exact alone _ _ same
        · exact same

@[simp] theorem pathToInode_foldl_retainChildren (evicted : List InodeEntry)
    (parents : List Ino) (table : InodeTable) :
    (parents.foldl (retainChildren evicted) table).pathToInode =
      table.pathToInode := by
  induction parents generalizing table with
  | nil => rfl
  | cons parent parents ih =>
      rw [List.foldl_cons, ih]
      exact pathToInode_modify _ _ _

@[simp] theorem nextInode_foldl_retainChildren (evicted : List InodeEntry)
    (parents : List Ino) (table : InodeTable) :
    (parents.foldl (retainChildren evicted) table).nextInode =
      table.nextInode := by
  induction parents generalizing table with
  | nil => rfl
  | cons parent parents ih =>
      rw [List.foldl_cons, ih]
      exact nextInode_modify _ _ _

theorem pathToInode_foldl_dropEvicted (evicted : List InodeEntry)
    (table : InodeTable) (path : Path) :
    (evicted.foldl dropEvicted table).pathToInode path =
      if path ∈ evicted.map (·.fullPath) then none
      else table.pathToInode path := by
  induction evicted generalizing table with
  | nil => rfl
  | cons entry evicted ih =>
      have dropped : (table.dropEvicted entry).pathToInode path =
          if path = entry.fullPath then none else table.pathToInode path := by
        unfold dropEvicted
        rw [pathToInode_modify]
        simp only [removePath, pathToInode_erase, Function.update_apply]
      rw [List.foldl_cons, ih, dropped, List.map_cons]
      by_cases here : path = entry.fullPath <;> simp [here]

theorem nextInode_foldl_dropEvicted (evicted : List InodeEntry)
    (table : InodeTable) :
    (evicted.foldl dropEvicted table).nextInode = table.nextInode := by
  induction evicted generalizing table with
  | nil => rfl
  | cons entry evicted ih =>
      rw [List.foldl_cons, ih]
      exact nextInode_modify _ _ _

/-- A directory entry without its evicted children. -/
def withoutEvicted (evicted : List InodeEntry) (ino : Ino)
    (entry : InodeEntry) : InodeEntry :=
  { entry with
    childIndex := forgetNames evicted ino entry.childIndex
    children := entry.children.filter fun child =>
      !evicted.any fun gone =>
        decide (gone.parent = ino) && decide (gone.inode = child.ino)
    childrenLoadedAt := if ino ∈ evicted.map (·.parent) then none
      else entry.childrenLoadedAt }

def evictedEntries (table : InodeTable) (inos : List Ino) : List InodeEntry :=
  (inos.dedup.filterMap table.get).filter (·.isEvictable)

theorem get_evictBatchIfSafe (table : InodeTable) (inos : List Ino)
    (other : Ino) :
    (table.evictBatchIfSafe inos).2.get other =
      if other ∈ (table.evictedEntries inos).map (·.inode) then none
      else (table.get other).map
        (withoutEvicted (table.evictedEntries inos) other) := by
  have split : (table.evictBatchIfSafe inos).2 =
      ((table.evictedEntries inos).map (·.parent)).dedup.foldl
        (retainChildren (table.evictedEntries inos))
        ((table.evictedEntries inos).foldl dropEvicted table) := rfl
  rw [split]
  generalize table.evictedEntries inos = evicted
  rw [get_foldl_retainChildren _ (List.nodup_dedup _)]
  by_cases isParent : other ∈ evicted.map (·.parent)
  · rw [if_pos (List.mem_dedup.mpr isParent), retainChildren, get_modify,
      if_pos rfl, get_foldl_dropEvicted]
    split
    · rfl
    · rw [Option.map_map]
      congr 1
      funext entry
      simp only [Function.comp_apply, withoutEvicted, if_pos isParent]
  · have noChild : ∀ child : DirChild, (evicted.any fun gone =>
        decide (gone.parent = other) && decide (gone.inode = child.ino)) =
          false := by
      intro child
      rw [List.any_eq_false]
      intro gone listed both
      simp only [Bool.and_eq_true, decide_eq_true_eq] at both
      exact isParent (List.mem_map.mpr ⟨gone, listed, both.1⟩)
    rw [if_neg (mt List.mem_dedup.mp isParent), get_foldl_dropEvicted]
    split
    · rfl
    · congr 1
      funext entry
      simp only [withoutEvicted, noChild, if_neg isParent, Bool.not_false,
        List.filter_true]

theorem pathToInode_evictBatchIfSafe (table : InodeTable) (inos : List Ino)
    (path : Path) :
    (table.evictBatchIfSafe inos).2.pathToInode path =
      if path ∈ (table.evictedEntries inos).map (·.fullPath) then none
      else table.pathToInode path := by
  simp only [evictBatchIfSafe, pathToInode_foldl_retainChildren]
  exact pathToInode_foldl_dropEvicted _ _ _

/-! ## What is left -/

/-- An evicted inode is a live file of the table. -/
theorem mem_evictedEntries {table : InodeTable} (wf : table.WellFormed)
    {inos : List Ino} {entry : InodeEntry}
    (listed : entry ∈ table.evictedEntries inos) :
    table.get entry.inode = some entry ∧ entry.kind = .file ∧
      entry.isLive = true := by
  obtain ⟨inTable, safe⟩ := List.mem_filter.mp listed
  obtain ⟨ino, _, found⟩ := List.mem_filterMap.mp inTable
  simp only [InodeEntry.isEvictable, Bool.and_eq_true,
    decide_eq_true_eq] at safe
  obtain ⟨⟨⟨⟨⟨isFile, _⟩, _⟩, _⟩, _⟩, links⟩ := safe
  refine ⟨?_, isFile, ?_⟩
  · rw [(wf.key found).1]
    exact found
  · simp [InodeEntry.isLive, links]

section

variable {table : InodeTable} {inos : List Ino} {ino : Ino}
  {entry : InodeEntry} {child : DirChild}

/-- Among the children of a directory, the evicted ones are the same by
inode number, by name, and as members of the batch. -/
theorem evicted_child (wf : table.WellFormed)
    (found : table.get ino = some entry) (listed : child ∈ entry.children)
    {gone : InodeEntry} (evicted : gone ∈ table.evictedEntries inos) :
    (gone.inode = child.ino → gone.parent = ino ∧ gone.name = child.name) ∧
      (gone.parent = ino → gone.name = child.name →
        gone.inode = child.ino) := by
  obtain ⟨foundGone, isFile, live⟩ := mem_evictedEntries wf evicted
  have file : gone.kind ≠ .directory := by
    rw [isFile]
    decide
  constructor
  · intro same
    obtain ⟨childEntry, isChild⟩ := wf.child found listed
    have foundChild := isChild.found
    rw [← same, foundGone] at foundChild
    obtain rfl := Option.some.inj foundChild
    exact ⟨isChild.parent, isChild.name⟩
  · intro sameParent sameName
    obtain ⟨parentEntry, foundParent, attached⟩ :=
      wf.attached foundGone (wf.ne_root_of_file foundGone file) live
    rw [sameParent, found] at foundParent
    obtain rfl := Option.some.inj foundParent
    rw [sameName] at attached
    exact (wf.indexed found).ino_eq attached listed

theorem mem_withoutEvicted (wf : table.WellFormed)
    (found : table.get ino = some entry) :
    child ∈ (withoutEvicted (table.evictedEntries inos) ino entry).children ↔
      child ∈ entry.children ∧
        child.ino ∉ (table.evictedEntries inos).map (·.inode) := by
  simp only [withoutEvicted, List.mem_filter, Bool.not_eq_true',
    List.any_eq_false, Bool.and_eq_true, decide_eq_true_eq, List.mem_map,
    not_exists]
  refine and_congr_right fun listed => forall_congr' fun gone => ?_
  constructor
  · rintro stays ⟨evicted, same⟩
    exact stays evicted
      ⟨((evicted_child wf found listed evicted).1 same).1, same⟩
  · rintro stays evicted ⟨_, same⟩
    exact stays ⟨evicted, same⟩

theorem indexed_withoutEvicted (wf : table.WellFormed)
    (found : table.get ino = some entry) :
    (withoutEvicted (table.evictedEntries inos) ino entry).Indexed := by
  constructor
  · exact (wf.indexed found).nodup.sublist (List.filter_sublist.map _)
  · intro name target
    have members := @mem_withoutEvicted table inos ino entry ⟨target, name⟩
      wf found
    rw [members, ← (wf.indexed found).index]
    simp only [withoutEvicted, forgetNames, List.mem_map, not_exists]
    split <;> rename_i forgotten
    · obtain ⟨gone, evicted, both⟩ := List.any_eq_true.mp forgotten
      simp only [Bool.and_eq_true, decide_eq_true_eq] at both
      constructor
      · intro absent
        cases absent
      · rintro ⟨indexed, stays⟩
        have listed := ((wf.indexed found).index name target).mp indexed
        exact absurd ⟨evicted, (evicted_child wf found listed evicted).2
          both.1 both.2⟩ (stays gone)
    · refine (and_iff_left_of_imp fun indexed gone => ?_).symm
      rintro ⟨evicted, same⟩
      have listed := ((wf.indexed found).index name target).mp indexed
      obtain ⟨sameParent, sameName⟩ :=
        (evicted_child wf found listed evicted).1 same
      exact forgotten (List.any_eq_true.mpr ⟨gone, evicted, by
        simp [sameParent, sameName]⟩)

end

/-- The evicted files leave the tree, and no link count changes. -/
theorem pruned_evictBatchIfSafe {table : InodeTable} (wf : table.WellFormed)
    (inos : List Ino) :
    PrunedBy (fun left right => right.nlink = left.nlink) table
      (table.evictBatchIfSafe inos).2
      (· ∈ (table.evictedEntries inos).map (·.inode)) := by
  have fileOf : ∀ {ino}, ino ∈ (table.evictedEntries inos).map (·.inode) →
      ∃ gone, table.get ino = some gone ∧ gone.kind ≠ .directory ∧
        gone ∈ table.evictedEntries inos ∧ gone.inode = ino := by
    intro ino isGone
    obtain ⟨gone, evicted, rfl⟩ := List.mem_map.mp isGone
    obtain ⟨found, isFile, _⟩ := mem_evictedEntries wf evicted
    refine ⟨gone, found, ?_, evicted, rfl⟩
    rw [isFile]
    decide
  refine ⟨?_, ?_, ?_, ?_, ?_, ?_⟩
  · intro isGone
    obtain ⟨gone, found, file, _⟩ := fileOf isGone
    exact wf.ne_root_of_file found file rfl
  · intro ino entry child isGone found listed
    obtain ⟨gone, foundGone, file, _⟩ := fileOf isGone
    obtain rfl := Option.some.inj (found.symm.trans foundGone)
    rw [wf.children_of_file found file] at listed
    cases listed
  · intro ino entry stays found
    refine ⟨withoutEvicted (table.evictedEntries inos) ino entry, ?_,
      ⟨rfl, rfl, rfl, rfl, rfl, fun _ => rfl⟩, rfl,
      indexed_withoutEvicted wf found, fun child => mem_withoutEvicted wf found⟩
    rw [get_evictBatchIfSafe, if_neg stays, found]
    rfl
  · intro ino other got
    rw [get_evictBatchIfSafe] at got
    split at got <;> rename_i isGone
    · cases got
    · obtain ⟨entry, found, _⟩ := Option.map_eq_some_iff.mp got
      exact ⟨entry, found, fun gone => absurd gone isGone⟩
  · intro path ino
    rw [pathToInode_evictBatchIfSafe]
    split <;> rename_i dropped
    · obtain ⟨gone, evicted, rfl⟩ := List.mem_map.mp dropped
      obtain ⟨found, _, live⟩ := mem_evictedEntries wf evicted
      constructor
      · intro absent
        cases absent
      · rintro ⟨mapped, stays⟩
        rw [wf.path.mpr ⟨gone, found, live, rfl⟩] at mapped
        obtain rfl := Option.some.inj mapped
        exact absurd (List.mem_map.mpr ⟨gone, evicted, rfl⟩) stays
    · refine (and_iff_left_of_imp fun mapped isGone => ?_).symm
      obtain ⟨gone, found, _, evicted, rfl⟩ := fileOf isGone
      obtain ⟨entry, foundAgain, _, fullPath⟩ := wf.path.mp mapped
      obtain rfl := Option.some.inj (found.symm.trans foundAgain)
      exact dropped (List.mem_map.mpr ⟨gone, evicted, fullPath⟩)
  · simp only [evictBatchIfSafe, nextInode_foldl_retainChildren,
      nextInode_foldl_dropEvicted]

end InodeTable

end HfMount.Inode
