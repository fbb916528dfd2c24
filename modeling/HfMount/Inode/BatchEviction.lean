import HfMount.Inode.SingleEvictions
import Mathlib.Data.Finset.Lattice.Lemmas

/-!
# Batches of evictions

The source groups the candidates of a batch by their directories, in a hash
map of hash sets, and walks over both twice: to drop the inodes, and to shorten
the lists of children.  For every order of these walks the table is the one
that single evictions leave.
-/

namespace HfMount.Inode

open SlashPath

namespace InodeTable

/-- A candidate that passes the check goes to the group of its directory. -/
def addCandidate (table : InodeTable)
    (groups : AList fun _ : Ino => Finset Ino) (ino : Ino) :
    AList fun _ : Ino => Finset Ino :=
  match (table.get ino).filter (·.isEvictable) with
  | none => groups
  | some entry =>
      groups.insert entry.parent
        ({ino} ∪ (groups.lookup entry.parent).getD ∅)

/-- The candidates that pass the check, under their directories. -/
def byParent (table : InodeTable) (inos : List Ino) :
    AList fun _ : Ino => Finset Ino :=
  inos.foldl table.addCandidate ∅

/-- One order of the walks over the map and over its sets. -/
structure WalksOver (groups : AList fun _ : Ino => Finset Ino)
    (walk : List (Ino × List Ino)) : Prop where
  perm : (walk.map fun group =>
    (⟨group.1, group.2.toFinset⟩ : Sigma fun _ : Ino => Finset Ino)).Perm
      groups.entries
  nodup : ∀ group ∈ walk, group.2.Nodup

/-- The first pass for one inode of the group of `parent`. -/
def dropListed (parent : Ino) (state : List Ino × InodeTable) (ino : Ino) :
    List Ino × InodeTable :=
  match state.2.get ino with
  | none => state
  | some entry =>
      (state.1 ++ [ino],
        ((state.2.erase ino).removePath entry.fullPath).modify parent
          fun parentEntry =>
            { parentEntry with
              childIndex :=
                Function.update parentEntry.childIndex entry.name none })

/-- The second pass for one group. -/
def retainOthers (table : InodeTable) (group : Ino × List Ino) : InodeTable :=
  table.modify group.1 fun parentEntry =>
    { parentEntry with
      children := parentEntry.children.filter fun child =>
        decide (child.ino ∉ group.2)
      childrenLoadedAt := none }

/-- `evictBatchIfSafe` with the order of its walks. -/
def evictBatchBy (table : InodeTable) (walk : List (Ino × List Ino)) :
    List Ino × InodeTable :=
  let dropped := walk.foldl
    (fun state group => group.2.foldl (dropListed group.1) state) ([], table)
  (dropped.1, walk.foldl retainOthers dropped.2)

variable {table after : InodeTable} {gone : List Ino}

/-! ## The groups of a batch -/

/-- The groups hold these candidates, each under its own directory. -/
structure Groups (table : InodeTable)
    (groups : AList fun _ : Ino => Finset Ino) (inos : List Ino) : Prop where
  nonempty : ∀ {parent set}, groups.lookup parent = some set → set.Nonempty
  mem : ∀ {parent ino},
    ino ∈ (groups.lookup parent).getD ∅ ↔
      ino ∈ inos ∧ ∃ entry, table.get ino = some entry ∧
        entry.isEvictable = true ∧ entry.parent = parent

theorem Groups.addCandidate {groups : AList fun _ : Ino => Finset Ino}
    {inos : List Ino} (grouped : Groups table groups inos) (ino : Ino) :
    Groups table (table.addCandidate groups ino) (inos ++ [ino]) := by
  unfold InodeTable.addCandidate
  cases found : (table.get ino).filter (·.isEvictable) with
  | none =>
      refine ⟨grouped.nonempty, ?_⟩
      intro parent other
      rw [grouped.mem, List.mem_append, List.mem_singleton]
      constructor
      · rintro ⟨listed, rest⟩
        exact ⟨Or.inl listed, rest⟩
      · rintro ⟨listed | rfl, entry, foundOther, safe, isParent⟩
        · exact ⟨listed, entry, foundOther, safe, isParent⟩
        · simp [foundOther, safe, Option.filter_some] at found
  | some entry =>
      obtain ⟨foundIno, safe⟩ := Option.filter_eq_some_iff.mp found
      constructor
      · intro parent set looked
        by_cases here : parent = entry.parent
        · rw [here, AList.lookup_insert] at looked
          rw [← Option.some.inj looked]
          exact ⟨ino, by simp⟩
        · rw [AList.lookup_insert_ne here] at looked
          exact grouped.nonempty looked
      · intro parent other
        by_cases here : parent = entry.parent
        · rw [here, AList.lookup_insert, Option.getD_some, Finset.mem_union,
            Finset.mem_singleton, grouped.mem, List.mem_append,
            List.mem_singleton]
          constructor
          · rintro (rfl | ⟨listed, rest⟩)
            · exact ⟨Or.inr rfl, entry, foundIno, safe, rfl⟩
            · exact ⟨Or.inl listed, rest⟩
          · rintro ⟨listed | same, rest⟩
            · exact Or.inr ⟨listed, rest⟩
            · exact Or.inl same
        · rw [AList.lookup_insert_ne here, grouped.mem, List.mem_append,
            List.mem_singleton]
          constructor
          · rintro ⟨listed, rest⟩
            exact ⟨Or.inl listed, rest⟩
          · rintro ⟨listed | rfl, again, foundOther, rest⟩
            · exact ⟨listed, again, foundOther, rest⟩
            · rw [foundIno] at foundOther
              obtain rfl := Option.some.inj foundOther
              exact absurd rest.2.symm here

theorem Groups.byParent (table : InodeTable) (inos : List Ino) :
    Groups table (table.byParent inos) inos := by
  have scan : ∀ (later : List Ino)
      {groups : AList fun _ : Ino => Finset Ino} {before : List Ino},
      Groups table groups before →
      Groups table (later.foldl table.addCandidate groups)
        (before ++ later) := by
    intro later
    induction later with
    | nil =>
        intro groups before grouped
        simpa using grouped
    | cons ino later ih =>
        intro groups before grouped
        simpa using ih (grouped.addCandidate ino)
  have start : Groups table ∅ [] := by
    constructor
    · intro parent set looked
      simp at looked
    · intro parent ino
      simp
  exact scan inos start

/-- What a walk over the groups of a batch meets. -/
structure Batches (table : InodeTable) (inos : List Ino)
    (walk : List (Ino × List Ino)) : Prop where
  parents : (walk.map (·.1)).Nodup
  nodup : ∀ group ∈ walk, group.2.Nodup
  nonempty : ∀ group ∈ walk, group.2 ≠ []
  mem : ∀ {group}, group ∈ walk → ∀ {ino}, ino ∈ group.2 ↔
    ino ∈ inos ∧ ∃ entry, table.get ino = some entry ∧
      entry.isEvictable = true ∧ entry.parent = group.1
  cover : ∀ {ino entry}, ino ∈ inos → table.get ino = some entry →
    entry.isEvictable = true → ∃ group ∈ walk, group.1 = entry.parent

theorem batches_of_walksOver {inos : List Ino}
    {walk : List (Ino × List Ino)}
    (order : WalksOver (table.byParent inos) walk) :
    Batches table inos walk := by
  have grouped := Groups.byParent table inos
  have looked : ∀ group ∈ walk,
      (table.byParent inos).lookup group.1 = some group.2.toFinset := by
    intro group listed
    apply AList.mem_lookup_iff.mpr
    apply order.perm.mem_iff.mp
    exact List.mem_map.mpr ⟨group, listed, rfl⟩
  constructor
  · have keys := order.perm.map Sigma.fst
    rw [List.map_map] at keys
    exact keys.nodup_iff.mpr (table.byParent inos).nodupKeys
  · exact order.nodup
  · intro group listed empty
    obtain ⟨ino, member⟩ := grouped.nonempty (looked group listed)
    simp [empty] at member
  · intro group listed ino
    rw [← grouped.mem, looked group listed]
    simp
  · intro ino entry listed found safe
    have member := grouped.mem.mpr ⟨listed, entry, found, safe, rfl⟩
    cases present : (table.byParent inos).lookup entry.parent with
    | none => simp [present] at member
    | some set =>
        have inEntries := AList.mem_lookup_iff.mp present
        obtain ⟨group, inWalk, same⟩ :=
          List.mem_map.mp (order.perm.mem_iff.mpr inEntries)
        exact ⟨group, inWalk, congrArg Sigma.fst same⟩

section

variable {inos : List Ino} {walk : List (Ino × List Ino)}

theorem Batches.mem_flatMap (batches : Batches table inos walk) {ino : Ino} :
    ino ∈ walk.flatMap (·.2) ↔ ino ∈ inos ∧ table.evictable ino = true := by
  rw [List.mem_flatMap, evictable_iff]
  constructor
  · rintro ⟨group, listed, member⟩
    obtain ⟨candidate, entry, found, safe, _⟩ := (batches.mem listed).mp member
    exact ⟨candidate, entry, found, safe⟩
  · rintro ⟨candidate, entry, found, safe⟩
    obtain ⟨group, listed, parent⟩ := batches.cover candidate found safe
    exact ⟨group, listed,
      (batches.mem listed).mpr ⟨candidate, entry, found, safe, parent.symm⟩⟩

theorem Batches.nodup_flatMap (batches : Batches table inos walk) :
    (walk.flatMap (·.2)).Nodup := by
  apply List.nodup_flatMap.mpr
  refine ⟨batches.nodup, ?_⟩
  have apart := batches.parents
  rw [List.Nodup, List.pairwise_map] at apart
  refine apart.imp_of_mem ?_
  intro left right inWalk alsoInWalk different ino first second
  obtain ⟨_, entry, found, _, parent⟩ := (batches.mem inWalk).mp first
  obtain ⟨_, again, foundAgain, _, other⟩ := (batches.mem alsoInWalk).mp second
  obtain rfl := Option.some.inj (found.symm.trans foundAgain)
  exact different (parent.symm.trans other)

end

/-! ## The two passes -/

/-- The table after the first pass: the inodes are out, and their names are
out of the indexes, but the lists of children are as they were. -/
structure Unindexed (table : InodeTable) (gone : List Ino)
    (after : InodeTable) : Prop where
  get : ∀ ino, after.get ino =
    if ino ∈ gone then none
    else (table.get ino).map fun entry =>
      { entry with childIndex := (entry.withoutChildren gone).childIndex }
  path : ∀ path, after.pathToInode path =
    (table.pathToInode path).filter fun ino => decide (ino ∉ gone)
  nextInode : after.nextInode = table.nextInode
  touchCounter : after.touchCounter = table.touchCounter

theorem Unindexed.refl (wf : table.WellFormed) : Unindexed table [] table := by
  have none := Without.refl wf
  refine ⟨?_, none.path, rfl, rfl⟩
  intro ino
  rw [if_neg List.not_mem_nil]
  cases found : table.get ino with
  | none => rfl
  | some entry =>
      rw [Option.map_some, InodeEntry.withoutChildren_of_apart
        (wf.indexed found) fun child _ => List.not_mem_nil]

theorem Unindexed.drop (wf : table.WellFormed)
    (first : Unindexed table gone after) {ino : Ino} {entry : InodeEntry}
    (found : table.get ino = some entry) (safe : entry.isEvictable = true)
    (fresh : ino ∉ gone) (evicted : List Ino) :
    ∃ next, dropListed entry.parent (evicted, after) ino =
        (evicted ++ [ino], next) ∧
      Unindexed table (gone ++ [ino]) next := by
  obtain ⟨parentEntry, foundParent, apart, listed, own⟩ :=
    placed_of_isEvictable wf found safe
  have foundAfter := first.get ino
  rw [if_neg fresh, found, Option.map_some] at foundAfter
  unfold dropListed
  rw [foundAfter]
  refine ⟨_, rfl, ?_, ?_, ?_, ?_⟩
  · intro other
    rw [get_modify, get_removePath, get_removePath, get_erase, get_erase,
      if_neg apart, first.get, first.get]
    by_cases isParent : other = entry.parent
    · rw [if_pos isParent, isParent]
      by_cases parentGone : entry.parent ∈ gone
      · rw [if_pos parentGone, if_pos (List.mem_append_left _ parentGone)]
        rfl
      · rw [if_neg parentGone, if_neg (by simp [parentGone, apart]),
          foundParent, Option.map_some, Option.map_some, Option.map_some]
        congr 2
        funext name
        have indexed := wf.indexed foundParent
        have named := (indexed.index entry.name ino).mpr listed
        simp only [InodeEntry.withoutChildren]
        by_cases here : name = entry.name
        · rw [here, Function.update_self, named, filter_append_self]
        · rw [Function.update_of_ne here, filter_append_of_ne]
          intro same
          exact here (indexed.name_eq ((indexed.index name ino).mp same)
            listed)
    · rw [if_neg isParent]
      by_cases same : other = ino
      · rw [if_pos same, if_pos (by simp [same])]
      · rw [if_neg same]
        by_cases before : other ∈ gone
        · rw [if_pos before, if_pos (List.mem_append_left _ before)]
        · rw [if_neg before, if_neg (by simp [before, same])]
          cases foundOther : table.get other with
          | none => rfl
          | some otherEntry =>
              rw [Option.map_some, Option.map_some]
              congr 2
              funext name
              simp only [InodeEntry.withoutChildren]
              rw [filter_append_of_ne]
              intro named
              have child := ((wf.indexed foundOther).index name ino).mp named
              exact not_listed_elsewhere wf found foundOther isParent _ child
                rfl
  · intro path
    rw [pathToInode_modify]
    by_cases here : path = entry.fullPath
    · simp [removePath, here, (own _).mpr, Option.filter_some]
    · have other : table.pathToInode path ≠ some ino := mt (own path).mp here
      simp only [removePath, pathToInode_erase, Function.update_of_ne here]
      rw [first.path, filter_append_of_ne other]
  · exact (nextInode_modify _ _ _).trans first.nextInode
  · exact (touchCounter_modify _ _ _).trans first.touchCounter

theorem Unindexed.dropGroup (wf : table.WellFormed) {parent : Ino}
    (set : List Ino) :
    ∀ {gone : List Ino} {after : InodeTable} (evicted : List Ino),
      Unindexed table gone after →
      (gone ++ set).Nodup →
      (∀ ino ∈ set, ∃ entry, table.get ino = some entry ∧
        entry.isEvictable = true ∧ entry.parent = parent) →
      ∃ next, set.foldl (dropListed parent) (evicted, after) =
          (evicted ++ set, next) ∧
        Unindexed table (gone ++ set) next := by
  induction set with
  | nil =>
      intro gone after evicted first _ _
      exact ⟨after, by simp, by simpa using first⟩
  | cons ino set ih =>
      intro gone after evicted first nodup safe
      obtain ⟨entry, found, passes, rfl⟩ := safe ino List.mem_cons_self
      have fresh : ino ∉ gone := by
        intro before
        exact (List.nodup_append.mp nodup).2.2 ino before ino
          List.mem_cons_self rfl
      obtain ⟨dropped, step, second⟩ := first.drop wf found passes fresh evicted
      obtain ⟨next, run, last⟩ := ih (evicted ++ [ino]) second
        (by simpa using nodup)
        fun other later => safe other (List.mem_cons_of_mem _ later)
      refine ⟨next, ?_, by simpa using last⟩
      rw [List.foldl_cons, step, run, List.append_assoc, List.singleton_append]

theorem Unindexed.dropWalk (wf : table.WellFormed)
    (walk : List (Ino × List Ino)) :
    ∀ {gone : List Ino} {after : InodeTable} (evicted : List Ino),
      Unindexed table gone after →
      (gone ++ walk.flatMap (·.2)).Nodup →
      (∀ group ∈ walk, ∀ ino ∈ group.2, ∃ entry,
        table.get ino = some entry ∧ entry.isEvictable = true ∧
          entry.parent = group.1) →
      ∃ next, walk.foldl
          (fun state group => group.2.foldl (dropListed group.1) state)
          (evicted, after) = (evicted ++ walk.flatMap (·.2), next) ∧
        Unindexed table (gone ++ walk.flatMap (·.2)) next := by
  induction walk with
  | nil =>
      intro gone after evicted first _ _
      exact ⟨after, by simp, by simpa using first⟩
  | cons group walk ih =>
      intro gone after evicted first nodup safe
      rw [List.flatMap_cons] at nodup ⊢
      have head : (gone ++ group.2).Nodup := by
        rw [← List.append_assoc] at nodup
        exact nodup.of_append_left
      obtain ⟨dropped, step, second⟩ := Unindexed.dropGroup wf group.2 evicted
        first head (safe group List.mem_cons_self)
      obtain ⟨next, run, last⟩ := ih (evicted ++ group.2) second
        (by simpa using nodup)
        fun other later => safe other (List.mem_cons_of_mem _ later)
      refine ⟨next, ?_, by simpa using last⟩
      rw [List.foldl_cons, step, run, List.append_assoc]

/-- What the second pass makes of a directory with a group. -/
def retained (set : List Ino) (entry : InodeEntry) : InodeEntry :=
  { entry with
    children := entry.children.filter fun child => decide (child.ino ∉ set)
    childrenLoadedAt := none }

theorem get_foldl_retainOthers (walk : List (Ino × List Ino))
    (parents : (walk.map (·.1)).Nodup) (start : InodeTable) (ino : Ino) :
    (walk.foldl retainOthers start).get ino =
      match walk.find? (·.1 == ino) with
      | none => start.get ino
      | some group => (start.get ino).map (retained group.2) := by
  induction walk generalizing start with
  | nil => rfl
  | cons group walk ih =>
      obtain ⟨notLater, tail⟩ := List.nodup_cons.mp parents
      rw [List.foldl_cons, ih tail]
      by_cases here : group.1 = ino
      · have missing : walk.find? (·.1 == ino) = none := by
          apply List.find?_eq_none.mpr
          intro other later same
          have again : other.1 = group.1 := by
            simpa [here] using same
          exact notLater (List.mem_map.mpr ⟨other, later, again⟩)
        rw [missing, List.find?_cons_of_pos (by simpa using here)]
        unfold retainOthers
        rw [← here, get_modify, if_pos rfl]
        rfl
      · rw [List.find?_cons_of_neg (by simpa using here)]
        unfold retainOthers
        rw [get_modify_of_ne _ (Ne.symm here)]

theorem foldl_retainOthers_frame (walk : List (Ino × List Ino))
    (start : InodeTable) :
    (walk.foldl retainOthers start).pathToInode = start.pathToInode ∧
      (walk.foldl retainOthers start).nextInode = start.nextInode ∧
      (walk.foldl retainOthers start).touchCounter = start.touchCounter := by
  induction walk generalizing start with
  | nil => exact ⟨rfl, rfl, rfl⟩
  | cons group walk ih =>
      rw [List.foldl_cons]
      obtain ⟨paths, next, touches⟩ := ih (retainOthers start group)
      exact ⟨paths.trans (pathToInode_modify _ _ _),
        next.trans (nextInode_modify _ _ _),
        touches.trans (touchCounter_modify _ _ _)⟩

section

variable {inos : List Ino} {walk : List (Ino × List Ino)}

/-- A directory after both passes. -/
theorem Batches.retained_eq (batches : Batches table inos walk)
    (wf : table.WellFormed) {group : Ino × List Ino} (listed : group ∈ walk)
    {entry : InodeEntry} (found : table.get group.1 = some entry) :
    retained group.2 { entry with
      childIndex := (entry.withoutChildren (walk.flatMap (·.2))).childIndex } =
      entry.withoutChildren (walk.flatMap (·.2)) := by
  -- A child of this directory is in its group if it is in any.
  have same : ∀ child ∈ entry.children,
      (child.ino ∈ group.2 ↔ child.ino ∈ walk.flatMap (·.2)) := by
    intro child inEntry
    constructor
    · intro member
      exact List.mem_flatMap.mpr ⟨group, listed, member⟩
    · intro member
      obtain ⟨candidate, passes⟩ := batches.mem_flatMap.mp member
      obtain ⟨childEntry, foundChild, safe⟩ := evictable_iff.mp passes
      obtain ⟨again, isChild⟩ := wf.child found inEntry
      rw [isChild.found] at foundChild
      obtain rfl := Option.some.inj foundChild
      exact (batches.mem listed).mpr
        ⟨candidate, again, isChild.found, safe, isChild.parent⟩
  have some' : ∃ child ∈ entry.children, child.ino ∈ walk.flatMap (·.2) := by
    obtain ⟨ino, member⟩ := List.exists_mem_of_ne_nil _
      (batches.nonempty group listed)
    obtain ⟨_, gone, foundGone, safe, parent⟩ :=
      (batches.mem listed).mp member
    obtain ⟨parentEntry, foundParent, _, inParent, _⟩ :=
      placed_of_isEvictable wf foundGone safe
    rw [parent, found] at foundParent
    obtain rfl := Option.some.inj foundParent
    exact ⟨_, inParent, List.mem_flatMap.mpr ⟨group, listed, member⟩⟩
  have children : entry.children.filter
        (fun child => decide (child.ino ∉ group.2)) =
      entry.children.filter
        fun child => decide (child.ino ∉ walk.flatMap (·.2)) := by
    apply List.filter_congr
    intro child inEntry
    simp only [same child inEntry]
  simp only [retained, InodeEntry.withoutChildren, if_pos some', children]

/-- The batch takes the same out of the table, in whatever order it walks. -/
theorem Batches.evictBatchBy (batches : Batches table inos walk)
    (wf : table.WellFormed) :
    (table.evictBatchBy walk).1 = walk.flatMap (·.2) ∧
      Without table (walk.flatMap (·.2)) (table.evictBatchBy walk).2 := by
  have safe : ∀ group ∈ walk, ∀ ino ∈ group.2, ∃ entry,
      table.get ino = some entry ∧ entry.isEvictable = true ∧
        entry.parent = group.1 :=
    fun group listed ino member => ((batches.mem listed).mp member).2
  obtain ⟨next, run, dropped⟩ := Unindexed.dropWalk wf walk []
    (.refl wf) batches.nodup_flatMap safe
  rw [List.nil_append] at run dropped
  unfold InodeTable.evictBatchBy
  rw [run]
  obtain ⟨paths, inode, touches⟩ := foldl_retainOthers_frame walk next
  refine ⟨rfl, ?_, ?_, inode.trans dropped.nextInode,
    touches.trans dropped.touchCounter⟩
  · intro ino
    dsimp only
    rw [get_foldl_retainOthers walk batches.parents, dropped.get]
    by_cases gone : ino ∈ walk.flatMap (·.2)
    · rw [if_pos gone, if_pos gone]
      cases walk.find? (·.1 == ino) <;> rfl
    · rw [if_neg gone, if_neg gone]
      cases found : table.get ino with
      | none => cases walk.find? (·.1 == ino) <;> rfl
      | some entry =>
          cases met : walk.find? (·.1 == ino) with
          | some group =>
              have listed := List.mem_of_find?_eq_some met
              have same : group.1 = ino := by
                simpa using List.find?_some met
              simp only [Option.map_some]
              rw [batches.retained_eq wf listed (same ▸ found)]
          | none =>
              -- No group, so no child of this directory is in the batch.
              have apart : ∀ child ∈ entry.children,
                  child.ino ∉ walk.flatMap (·.2) := by
                intro child inEntry member
                obtain ⟨candidate, passes⟩ := batches.mem_flatMap.mp member
                obtain ⟨childEntry, foundChild, safe⟩ :=
                  evictable_iff.mp passes
                obtain ⟨again, isChild⟩ := wf.child found inEntry
                rw [isChild.found] at foundChild
                obtain rfl := Option.some.inj foundChild
                obtain ⟨group, listed, parent⟩ :=
                  batches.cover candidate isChild.found safe
                have missed := List.find?_eq_none.mp met group listed
                rw [isChild.parent] at parent
                simp [parent] at missed
              simp only [Option.map_some]
              rw [InodeEntry.withoutChildren_of_apart (wf.indexed found) apart]
  · intro path
    dsimp only
    rw [paths, dropped.path]

end

/-- The batch evicts what single evictions of its closed candidates evict, and
leaves the same table. -/
theorem evictBatch_eq_evictEach (wf : table.WellFormed) (inos : List Ino)
    {walk : List (Ino × List Ino)}
    (order : WalksOver (table.byParent inos) walk) :
    let each := table.evictEach
      (inos.filter fun ino => !table.hasOpenHandles ino)
    (table.evictBatchBy walk).1.Perm each.1 ∧
      SameTable (table.evictBatchBy walk).2 each.2 := by
  intro each
  have batches := batches_of_walksOver order
  obtain ⟨evicted, batch⟩ := batches.evictBatchBy wf
  have closed : ∀ ino ∈ inos.filter fun ino => !table.hasOpenHandles ino,
      table.hasOpenHandles ino = false := by
    intro ino listed
    simpa using (List.mem_filter.mp listed).2
  obtain ⟨single, nodup, members⟩ := evictEach_without wf closed
  have same : ∀ ino, ino ∈ walk.flatMap (·.2) ↔ ino ∈ each.1 := by
    intro ino
    rw [batches.mem_flatMap, members, List.mem_filter, and_assoc]
    apply and_congr_right
    intro _
    constructor
    · intro passes
      exact ⟨by simp [closed_of_evictable passes], passes⟩
    · exact And.right
  constructor
  · rw [evicted]
    exact (List.perm_ext_iff_of_nodup batches.nodup_flatMap nodup).mpr same
  · exact (batch.congr same).sameTable single

/-- A table with the files `a` and `b`. -/
def twoCandidates : InodeTable :=
  ((new.insert rootInode ['a'] (childPath [] ['a']) .file 0 0 none 420 0 0
    0).2.insert rootInode ['b'] (childPath [] ['b']) .file 0 0 none 420 0 0
      0).2

theorem wellFormed_twoCandidates : twoCandidates.WellFormed := by
  have root : new.get rootInode = some rootEntry := rfl
  have first := wellFormed_new.insert root rfl (show ValidName ['a'] by decide) rfl
    .file 0 0 none 420 0 0 0
  have grown : (new.insert rootInode ['a'] (childPath [] ['a']) .file 0 0 none
      420 0 0 0).2.get rootInode = some (grownParent rootEntry 2 ['a'] .file) :=
    rfl
  exact first.insert grown rfl (by decide) rfl .file 0 0 none 420 0 0 0

theorem evictBatch_eq_evictEach_twoCandidates :
    let each := twoCandidates.evictEach
      ([2, 9, 3, 2].filter fun ino => !twoCandidates.hasOpenHandles ino)
    (twoCandidates.evictBatchBy [(1, [3, 2])]).1.Perm each.1 ∧
      SameTable (twoCandidates.evictBatchBy [(1, [3, 2])]).2 each.2 :=
  evictBatch_eq_evictEach wellFormed_twoCandidates [2, 9, 3, 2]
    ⟨by decide, by decide⟩

end InodeTable

end HfMount.Inode
