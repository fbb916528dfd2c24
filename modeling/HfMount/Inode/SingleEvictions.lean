import HfMount.Inode.Eviction

/-!
# Evictions one after the other

What a run of `evictIfSafe` takes out of a table is known by the inodes that
are gone: the entries of the others differ only in their children.
-/

namespace HfMount.Inode

open SlashPath

/-- A directory entry without the children of a batch. -/
def InodeEntry.withoutChildren (gone : List Ino) (entry : InodeEntry) :
    InodeEntry :=
  { entry with
    children := entry.children.filter fun child => decide (child.ino ∉ gone)
    childIndex := fun name =>
      (entry.childIndex name).filter fun ino => decide (ino ∉ gone)
    childrenLoadedAt :=
      if ∃ child ∈ entry.children, child.ino ∈ gone then none
      else entry.childrenLoadedAt }

namespace InodeTable

/-- `evictIfSafe` for one inode after the other. -/
def evictEach (table : InodeTable) (inos : List Ino) :
    List Ino × InodeTable :=
  inos.foldl
    (fun state ino =>
      let evicted := state.2.evictIfSafe ino
      (if evicted.1 then state.1 ++ [ino] else state.1, evicted.2))
    ([], table)

/-- The same inodes with the same entries, and the same mappings. -/
structure SameTable (left right : InodeTable) : Prop where
  get : ∀ ino, right.get ino = left.get ino
  pathToInode : right.pathToInode = left.pathToInode
  nextInode : right.nextInode = left.nextInode
  touchCounter : right.touchCounter = left.touchCounter

/-- The table without the inodes `gone`, and without them among the children
of the others. -/
structure Without (table : InodeTable) (gone : List Ino) (after : InodeTable) :
    Prop where
  get : ∀ ino, after.get ino =
    if ino ∈ gone then none
    else (table.get ino).map (InodeEntry.withoutChildren gone)
  path : ∀ path, after.pathToInode path =
    (table.pathToInode path).filter fun ino => decide (ino ∉ gone)
  nextInode : after.nextInode = table.nextInode
  touchCounter : after.touchCounter = table.touchCounter

end InodeTable

/-! ## Taking children out -/

namespace InodeEntry

theorem withoutChildren_append (first second : List Ino) (entry : InodeEntry) :
    entry.withoutChildren (first ++ second) =
      (entry.withoutChildren first).withoutChildren second := by
  unfold withoutChildren
  congr 1
  · by_cases before : ∃ child ∈ entry.children, child.ino ∈ first
    · obtain ⟨child, listed, gone⟩ := before
      have now : ∃ child ∈ entry.children, child.ino ∈ first ++ second :=
        ⟨child, listed, List.mem_append_left _ gone⟩
      have then' : ∃ child ∈ entry.children, child.ino ∈ first :=
        ⟨child, listed, gone⟩
      simp only [if_pos now, if_pos then', ite_self]
    · have kept : ∀ child ∈ entry.children, child.ino ∉ first := by
        simpa using before
      rw [if_neg before]
      congr 1
      simp only [List.mem_append, List.mem_filter, decide_eq_true_eq,
        eq_iff_iff]
      constructor
      · rintro ⟨child, listed, gone⟩
        exact ⟨child, ⟨listed, kept child listed⟩,
          gone.resolve_left (kept child listed)⟩
      · rintro ⟨child, ⟨listed, _⟩, gone⟩
        exact ⟨child, listed, Or.inr gone⟩
  · rw [List.filter_filter]
    congr 1
    funext child
    simp [Bool.and_comm]
  · funext name
    rw [Option.filter_filter]
    congr 1
    funext ino
    simp

@[simp] theorem isEvictable_withoutChildren (gone : List Ino)
    (entry : InodeEntry) :
    (entry.withoutChildren gone).isEvictable = entry.isEvictable := rfl

@[simp] theorem hasOpenHandles_withoutChildren (gone : List Ino)
    (entry : InodeEntry) :
    (entry.withoutChildren gone).hasOpenHandles = entry.hasOpenHandles := rfl

/-- Only the members of the batch matter. -/
theorem withoutChildren_congr {first second : List Ino}
    (same : ∀ ino, ino ∈ first ↔ ino ∈ second) (entry : InodeEntry) :
    entry.withoutChildren first = entry.withoutChildren second := by
  simp only [withoutChildren, same]

/-- An entry with other children stays as it is. -/
theorem withoutChildren_of_apart {gone : List Ino} {entry : InodeEntry}
    (indexed : entry.Indexed)
    (apart : ∀ child ∈ entry.children, child.ino ∉ gone) :
    entry.withoutChildren gone = entry := by
  have none : ¬ ∃ child ∈ entry.children, child.ino ∈ gone := by
    simpa using apart
  have children : entry.children.filter
      (fun child => decide (child.ino ∉ gone)) = entry.children := by
    apply List.filter_eq_self.mpr
    simpa using apart
  have index : (fun name => (entry.childIndex name).filter
      fun ino => decide (ino ∉ gone)) = entry.childIndex := by
    funext name
    cases found : entry.childIndex name with
    | none => rfl
    | some ino =>
        have listed := (indexed.index name ino).mp found
        simp [apart ⟨ino, name⟩ listed, Option.filter_some]
  unfold withoutChildren
  rw [if_neg none, children, index]

theorem eraseP_eq_filter {children : List DirChild}
    (nodup : (children.map (·.ino)).Nodup) (ino : Ino) :
    children.eraseP (·.ino == ino) =
      children.filter fun child => decide (child.ino ∉ [ino]) := by
  induction children with
  | nil => rfl
  | cons head tail ih =>
      obtain ⟨notLater, tailNodup⟩ := List.nodup_cons.mp nodup
      by_cases hit : head.ino = ino
      · have stay : tail.filter (fun child => decide (child.ino ∉ [ino])) =
            tail := by
          apply List.filter_eq_self.mpr
          intro child later
          have other : child.ino ≠ head.ino := by
            intro same
            exact notLater (List.mem_map.mpr ⟨child, later, same⟩)
          simpa [hit] using other
        rw [List.eraseP_cons_of_pos (by simp [hit]),
          List.filter_cons_of_neg (by simp [hit]), stay]
      · rw [List.eraseP_cons_of_neg (by simp [hit]),
          List.filter_cons_of_pos (by simp [hit]), ih tailNodup]

/-- Removing a listed child by its position. -/
theorem removeChildByIno_of_mem {entry : InodeEntry} (indexed : entry.Indexed)
    {ino : Ino} {name : Name} (listed : ⟨ino, name⟩ ∈ entry.children) :
    { entry.removeChildByIno ino with childrenLoadedAt := none } =
      entry.withoutChildren [ino] := by
  have gone : ∃ child ∈ entry.children, child.ino ∈ [ino] :=
    ⟨⟨ino, name⟩, listed, List.mem_singleton.mpr rfl⟩
  unfold removeChildByIno withoutChildren
  cases found : entry.children.find? (·.ino == ino) with
  | none =>
      have missing := List.find?_eq_none.mp found ⟨ino, name⟩ listed
      simp at missing
  | some removed =>
      have member := List.mem_of_find?_eq_some found
      have same : removed.ino = ino := by
        simpa using List.find?_some found
      have index : Function.update entry.childIndex removed.name none =
          fun other => (entry.childIndex other).filter
            fun target => decide (target ∉ [ino]) := by
        funext other
        have own := (indexed.index removed.name removed.ino).mpr member
        by_cases here : other = removed.name
        · rw [here, Function.update_self, own]
          simp [same, Option.filter_some]
        · rw [Function.update_of_ne here]
          cases named : entry.childIndex other with
          | none => rfl
          | some target =>
              have apart : target ≠ ino := by
                intro hit
                rw [hit, ← same] at named
                exact here (indexed.name_eq
                  ((indexed.index other removed.ino).mp named) member)
              simp [apart, Option.filter_some]
      simp only [if_pos gone, index, eraseP_eq_filter indexed.nodup]

end InodeEntry

namespace InodeTable

variable {table after last : InodeTable} {gone more : List Ino}

theorem Without.refl (wf : table.WellFormed) : Without table [] table := by
  refine ⟨?_, ?_, rfl, rfl⟩
  · intro ino
    rw [if_neg List.not_mem_nil]
    cases found : table.get ino with
    | none => rfl
    | some entry =>
        rw [Option.map_some, InodeEntry.withoutChildren_of_apart
          (wf.indexed found) fun child _ => List.not_mem_nil]
  · intro path
    cases table.pathToInode path <;> simp [Option.filter_some]

theorem Without.trans (first : Without table gone after)
    (second : Without after more last) : Without table (gone ++ more) last := by
  refine ⟨?_, ?_, second.nextInode.trans first.nextInode,
    second.touchCounter.trans first.touchCounter⟩
  · intro ino
    rw [second.get, first.get]
    by_cases now : ino ∈ more
    · rw [if_pos now, if_pos (List.mem_append_right _ now)]
    · by_cases before : ino ∈ gone
      · rw [if_neg now, if_pos before, if_pos (List.mem_append_left _ before)]
        rfl
      · have neither : ino ∉ gone ++ more := by
          simp [before, now]
        rw [if_neg now, if_neg before, if_neg neither, Option.map_map]
        congr 1
        funext entry
        exact (InodeEntry.withoutChildren_append gone more entry).symm
  · intro path
    rw [second.path, first.path, Option.filter_filter]
    congr 1
    funext ino
    simp

/-- Only the members of the batch matter. -/
theorem Without.congr (without : Without table gone after)
    (same : ∀ ino, ino ∈ gone ↔ ino ∈ more) : Without table more after := by
  refine ⟨?_, ?_, without.nextInode, without.touchCounter⟩
  · intro ino
    rw [without.get, funext (InodeEntry.withoutChildren_congr same)]
    simp only [same]
  · intro path
    rw [without.path]
    simp only [same]

theorem Without.sameTable (first : Without table gone after)
    (second : Without table gone last) : SameTable after last := by
  constructor
  · intro ino
    rw [second.get, first.get]
  · funext path
    rw [second.path, first.path]
  · exact second.nextInode.trans first.nextInode.symm
  · exact second.touchCounter.trans first.touchCounter.symm

/-! ## One inode after the other -/

/-- Where a file that passes the check is in the tree. -/
theorem placed_of_isEvictable (wf : table.WellFormed) {ino : Ino}
    {entry : InodeEntry} (found : table.get ino = some entry)
    (safe : entry.isEvictable = true) :
    ∃ parentEntry, table.get entry.parent = some parentEntry ∧
      entry.parent ≠ ino ∧ ⟨ino, entry.name⟩ ∈ parentEntry.children ∧
      ∀ path, table.pathToInode path = some ino ↔ path = entry.fullPath := by
  simp only [InodeEntry.isEvictable, Bool.and_eq_true,
    decide_eq_true_eq] at safe
  obtain ⟨⟨⟨⟨⟨isFile, _⟩, _⟩, _⟩, _⟩, links⟩ := safe
  have file : entry.kind ≠ .directory := by
    rw [isFile]
    decide
  have live : entry.isLive = true := by
    simp [InodeEntry.isLive, links]
  obtain ⟨parentEntry, foundParent, directory, _, listed, _⟩ :=
    wf.parent found (wf.ne_root_of_file found file) live
  refine ⟨parentEntry, foundParent, ?_, listed, ?_⟩
  · intro same
    rw [same, found] at foundParent
    exact file (Option.some.inj foundParent ▸ directory)
  · intro path
    rw [wf.path]
    constructor
    · rintro ⟨again, foundAgain, _, rfl⟩
      rw [found] at foundAgain
      rw [Option.some.inj foundAgain]
    · intro here
      exact ⟨entry, found, live, here.symm⟩

/-- A directory that is not the parent does not list the inode. -/
theorem not_listed_elsewhere (wf : table.WellFormed) {ino other : Ino}
    {entry otherEntry : InodeEntry} (found : table.get ino = some entry)
    (foundOther : table.get other = some otherEntry)
    (elsewhere : other ≠ entry.parent) :
    ∀ child ∈ otherEntry.children, child.ino ≠ ino := by
  intro child listed same
  obtain ⟨childEntry, isChild⟩ := wf.child foundOther listed
  have foundChild := isChild.found
  rw [same, found] at foundChild
  obtain rfl := Option.some.inj foundChild
  exact elsewhere isChild.parent.symm

theorem filter_append_of_ne {mapped : Option Ino} {ino : Ino}
    (other : mapped ≠ some ino) (gone : List Ino) :
    mapped.filter (fun target => decide (target ∉ gone ++ [ino])) =
      mapped.filter fun target => decide (target ∉ gone) := by
  cases mapped with
  | none => rfl
  | some target =>
      have apart : target ≠ ino := fun same => other (congrArg some same)
      simp [Option.filter_some, apart]

theorem filter_append_self (ino : Ino) (gone : List Ino) :
    (some ino).filter (fun target => decide (target ∉ gone ++ [ino])) =
      none := by
  simp [Option.filter_some]

/-- What one eviction takes out of a table. -/
theorem evictIfSafe_without (wf : table.WellFormed) {ino : Ino}
    {entry : InodeEntry} (found : table.get ino = some entry)
    (safe : entry.isEvictable = true) :
    (table.evictIfSafe ino).1 = true ∧
      Without table [ino] (table.evictIfSafe ino).2 := by
  obtain ⟨parentEntry, foundParent, apart, listed, own⟩ :=
    placed_of_isEvictable wf found safe
  simp only [InodeEntry.isEvictable, Bool.and_eq_true,
    decide_eq_true_eq] at safe
  obtain ⟨⟨⟨⟨⟨isFile, forgotten⟩, _⟩, clean⟩, settled⟩, links⟩ := safe
  unfold InodeTable.evictIfSafe
  simp only [found, isFile, forgotten, clean, settled, links, decide_true,
    Bool.and_self, if_true, true_and]
  refine ⟨?_, ?_, ?_, ?_⟩
  · intro other
    rw [get_modify, get_removePath, get_removePath, get_erase, get_erase,
      if_neg apart, foundParent, Option.map_some,
      InodeEntry.removeChildByIno_of_mem (wf.indexed foundParent) listed]
    by_cases isParent : other = entry.parent
    · rw [if_pos isParent, isParent, if_neg (by simpa using apart),
        foundParent]
      rfl
    · rw [if_neg isParent]
      simp only [List.mem_singleton]
      split
      · rfl
      · cases foundOther : table.get other with
        | none => rfl
        | some otherEntry =>
            rw [Option.map_some, InodeEntry.withoutChildren_of_apart
              (wf.indexed foundOther)]
            intro child listedOther same
            exact not_listed_elsewhere wf found foundOther isParent child
              listedOther (List.mem_singleton.mp same)
  · intro path
    rw [pathToInode_modify]
    by_cases here : path = entry.fullPath
    · simp [removePath, here, (own _).mpr, Option.filter_some]
    · have other : table.pathToInode path ≠ some ino := mt (own path).mp here
      simp only [removePath, pathToInode_erase, Function.update_of_ne here]
      rw [← List.nil_append [ino], filter_append_of_ne other]
      cases table.pathToInode path <;> simp [Option.filter_some]
  · exact nextInode_modify _ _ _
  · exact touchCounter_modify _ _ _

/-- The inode is in the table and passes the check of the batch. -/
def evictable (table : InodeTable) (ino : Ino) : Bool :=
  (table.get ino).any (·.isEvictable)

theorem evictable_iff {ino : Ino} :
    table.evictable ino = true ↔
      ∃ entry, table.get ino = some entry ∧ entry.isEvictable = true :=
  Option.any_eq_true _ _

theorem Without.any (without : Without table gone after) (ino : Ino)
    {check : InodeEntry → Bool}
    (same : ∀ entry, check (entry.withoutChildren gone) = check entry) :
    (after.get ino).any check =
      (decide (ino ∉ gone) && (table.get ino).any check) := by
  rw [without.get]
  split <;> rename_i left
  · simp [left]
  · rw [Option.any_map, funext same]
    simp [left]

theorem evictIfSafe_of_not_evictable {ino : Ino}
    (closed : table.hasOpenHandles ino = false)
    (kept : table.evictable ino = false) :
    table.evictIfSafe ino = (false, table) := by
  unfold InodeTable.evictIfSafe
  cases found : table.get ino with
  | none => rfl
  | some entry =>
      have unsafe' : entry.isEvictable = false := by
        simpa [evictable, found] using kept
      have noHandles : entry.eviction.openHandles = 0 := by
        simpa [hasOpenHandles, InodeEntry.hasOpenHandles, found] using closed
      unfold InodeEntry.isEvictable at unsafe'
      simp only [noHandles, beq_self_eq_true, Bool.and_true] at unsafe'
      simp only [unsafe']
      rfl

theorem closed_of_evictable {ino : Ino} (passes : table.evictable ino = true) :
    table.hasOpenHandles ino = false := by
  obtain ⟨entry, found, safe⟩ := evictable_iff.mp passes
  simp only [InodeEntry.isEvictable, Bool.and_eq_true, beq_iff_eq,
    decide_eq_true_eq] at safe
  obtain ⟨⟨⟨⟨_, handles⟩, _⟩, _⟩, _⟩ := safe
  simp [hasOpenHandles, InodeEntry.hasOpenHandles, found, handles]

/-- The run of single evictions takes out what passes the check at its start. -/
theorem foldl_evictIfSafe (inos : List Ino) :
    ∀ {table : InodeTable} (before : List Ino), table.WellFormed →
      (∀ ino ∈ inos, table.hasOpenHandles ino = false) →
      ∃ gone after,
        inos.foldl
          (fun state ino =>
            let evicted := state.2.evictIfSafe ino
            (if evicted.1 then state.1 ++ [ino] else state.1, evicted.2))
          (before, table) = (before ++ gone, after) ∧
        Without table gone after ∧ gone.Nodup ∧
        ∀ ino, ino ∈ gone ↔ ino ∈ inos ∧ table.evictable ino = true := by
  induction inos with
  | nil =>
      intro table before wf closed
      exact ⟨[], table, by simp, .refl wf, List.nodup_nil, by simp⟩
  | cons ino inos ih =>
      intro table before wf closed
      have closedTail : ∀ other ∈ inos, table.hasOpenHandles other = false :=
        fun other later => closed other (List.mem_cons_of_mem _ later)
      rw [List.foldl_cons]
      cases safe : table.evictable ino with
      | false =>
          rw [evictIfSafe_of_not_evictable (closed ino List.mem_cons_self) safe]
          obtain ⟨gone, after, run, without, nodup, members⟩ :=
            ih before wf closedTail
          refine ⟨gone, after, run, without, nodup, ?_⟩
          intro other
          rw [members]
          by_cases same : other = ino
          · simp [same, safe]
          · simp [same]
      | true =>
          obtain ⟨entry, found, passes⟩ := evictable_iff.mp safe
          obtain ⟨evicted, first⟩ := evictIfSafe_without wf found passes
          have closedLater : ∀ other ∈ inos,
              (table.evictIfSafe ino).2.hasOpenHandles other = false := by
            intro other later
            have handles := first.any other
              (InodeEntry.hasOpenHandles_withoutChildren [ino])
            unfold hasOpenHandles
            rw [handles]
            simp only [Bool.and_eq_false_imp]
            intro _
            exact closedTail other later
          obtain ⟨gone, after, run, second, nodup, members⟩ :=
            ih (before ++ [ino]) (wf.evictIfSafe ino) closedLater
          have left : ∀ other,
              (table.evictIfSafe ino).2.evictable other =
                (decide (other ∉ [ino]) && table.evictable other) :=
            fun other => first.any other
              (InodeEntry.isEvictable_withoutChildren [ino])
          refine ⟨ino :: gone, after, ?_, first.trans second, ?_, ?_⟩
          · simp only [evicted, if_true]
            rw [run, List.append_assoc, List.singleton_append]
          · apply List.nodup_cons.mpr
            refine ⟨?_, nodup⟩
            intro again
            have still := ((members ino).mp again).2
            rw [left] at still
            simp at still
          · intro other
            rw [List.mem_cons, members, left]
            by_cases same : other = ino
            · simp [same, safe]
            · simp [same]

theorem evictEach_without (wf : table.WellFormed) {inos : List Ino}
    (closed : ∀ ino ∈ inos, table.hasOpenHandles ino = false) :
    Without table (table.evictEach inos).1 (table.evictEach inos).2 ∧
      (table.evictEach inos).1.Nodup ∧
      ∀ ino, ino ∈ (table.evictEach inos).1 ↔
        ino ∈ inos ∧ table.evictable ino = true := by
  obtain ⟨gone, after, run, rest⟩ := foldl_evictIfSafe inos [] wf closed
  have each : table.evictEach inos = (gone, after) := run
  rw [each]
  exact rest

end InodeTable

end HfMount.Inode
