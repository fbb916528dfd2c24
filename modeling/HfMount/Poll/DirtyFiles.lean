import HfMount.Poll.Removal
import HfMount.Inode.Relocate

/-!
# Remote changes and dirty inodes

The updates of a poll and of the live feed skip dirty inodes, and so does the
check of a removal.  But the removal then acts on a name or a path, which may
belong to another inode by now: exactly then a poll touches a dirty inode.
-/

namespace HfMount.Poll

open SlashPath Inode

/-! ## Changes of metadata -/

/-- An entry after an update from the remote: only a clean one changes. -/
structure Refreshed (old new : InodeEntry) : Prop
    extends old.SameNode new where
  nlink : new.nlink = old.nlink
  eviction : new.eviction = old.eviction
  dirtyGeneration : new.dirtyGeneration = old.dirtyGeneration
  content : old.isDirty = true →
    new.size = old.size ∧ new.xetHash = old.xetHash
  loaded : new.childrenLoaded = true → old.childrenLoaded = true

theorem Refreshed.refl (entry : InodeEntry) : Refreshed entry entry :=
  ⟨.refl entry, rfl, rfl, rfl, fun _ => ⟨rfl, rfl⟩, id⟩

theorem Refreshed.trans {first second third : InodeEntry}
    (left : Refreshed first second) (right : Refreshed second third) :
    Refreshed first third := by
  refine ⟨left.toSameNode.trans right.toSameNode, right.nlink.trans left.nlink,
    right.eviction.trans left.eviction,
    right.dirtyGeneration.trans left.dirtyGeneration, ?_,
    fun loaded => left.loaded (right.loaded loaded)⟩
  intro dirty
  obtain ⟨size, xetHash⟩ := left.content dirty
  have stillDirty : second.isDirty = true := by
    unfold InodeEntry.isDirty at dirty ⊢
    rw [left.dirtyGeneration]
    exact dirty
  obtain ⟨size', xetHash'⟩ := right.content stillDirty
  exact ⟨size'.trans size, xetHash'.trans xetHash⟩

abbrev RefreshedTable (before after : InodeTable) : Prop :=
  InodeTable.Corresponding Refreshed before after

theorem RefreshedTable.refl (table : InodeTable) : RefreshedTable table table :=
  InodeTable.Corresponding.refl .refl table

theorem RefreshedTable.trans {first second third : InodeTable}
    (left : RefreshedTable first second) (right : RefreshedTable second third) :
    RefreshedTable first third :=
  InodeTable.Corresponding.trans .trans left right

theorem RefreshedTable.similar {before after : InodeTable}
    (refreshed : RefreshedTable before after) : before.Similar after := by
  refine ⟨?_, ?_, refreshed.path, refreshed.nextInode⟩
  · intro ino entry found
    obtain ⟨other, got, same⟩ := refreshed.forward found
    exact ⟨other, got, same.toSameNode⟩
  · intro ino other got
    obtain ⟨entry, found, same⟩ := refreshed.backward got
    exact ⟨entry, found, same.toSameNode⟩

theorem RefreshedTable.slot {before after : InodeTable}
    (refreshed : RefreshedTable before after) (dir : Ino) (name : Name) :
    slot after dir name = slot before dir name :=
  refreshed.bind_get (fun _ _ same => by rw [same.childIndex]) dir

theorem RefreshedTable.listed {before after : InodeTable}
    (refreshed : RefreshedTable before after) (dir : Ino) (name : Name)
    (ino : Ino) : Listed after dir name ino ↔ Listed before dir name ino := by
  constructor
  · rintro ⟨other, got, inChildren⟩
    obtain ⟨entry, found, same⟩ := refreshed.backward got
    exact ⟨entry, found, same.children ▸ inChildren⟩
  · rintro ⟨entry, found, inChildren⟩
    obtain ⟨other, got, same⟩ := refreshed.forward found
    exact ⟨other, got, same.children.symm ▸ inChildren⟩

theorem RefreshedTable.untouched {before after : InodeTable}
    (refreshed : RefreshedTable before after) {ino : Ino} {entry : InodeEntry}
    (found : before.get ino = some entry) (dirty : entry.isDirty = true) :
    Untouched before after ino := by
  obtain ⟨other, got, same⟩ := refreshed.forward found
  obtain ⟨size, xetHash⟩ := same.content dirty
  refine ⟨⟨entry, other, found, got, same.nlink, size, xetHash,
    same.dirtyGeneration⟩, fun dir name => refreshed.listed dir name ino, ?_,
    fun path => by rw [refreshed.path]⟩
  intro dir name
  rw [refreshed.slot]

theorem RefreshedTable.deletionTarget {before after : InodeTable}
    (refreshed : RefreshedTable before after) (ino : Ino) :
    deletionTarget after ino = deletionTarget before ino := by
  unfold Poll.deletionTarget
  simp only [refreshed.slot, refreshed.path]
  apply refreshed.bind_get
  intro entry other same
  have dirty : other.isDirty = entry.isDirty := by
    unfold InodeEntry.isDirty
    rw [same.dirtyGeneration]
  have opened : other.hasOpenHandles = entry.hasOpenHandles := by
    unfold InodeEntry.hasOpenHandles
    rw [same.eviction]
  rw [dirty, opened, same.parent, same.name, same.fullPath]

theorem refreshed_invalidateChildren (table : InodeTable) (ino : Ino) :
    RefreshedTable table (table.invalidateChildren ino) :=
  InodeTable.corresponding_modify .refl table ino fun _ =>
    ⟨.of_fields rfl, rfl, rfl, rfl,
      fun _ => ⟨rfl, rfl⟩, fun loaded => by cases loaded⟩

theorem refreshed_foldl_invalidateChildren {α : Type} (dirs : List α)
    (ino : α → Ino) (table : InodeTable) :
    RefreshedTable table
      (dirs.foldl (fun current dir => current.invalidateChildren (ino dir))
        table) := by
  induction dirs generalizing table with
  | nil => exact .refl table
  | cons dir dirs ih =>
      exact (refreshed_invalidateChildren table (ino dir)).trans (ih _)

theorem refreshed_mergeRemoteFile (table : InodeTable) (ino : Ino)
    (hash : Option Hash) (size : Option Nat) (mtime : Option Time) :
    RefreshedTable table (table.mergeRemoteFile ino hash size mtime).2 := by
  unfold InodeTable.mergeRemoteFile
  split <;> rename_i found
  · exact .refl table
  split <;> rename_i clean
  · exact .refl table
  · refine InodeTable.corresponding_put .refl found ?_
    exact ⟨.of_fields rfl, rfl, rfl, rfl,
      fun dirty => absurd dirty clean, id⟩

theorem refreshed_applyUpdate (table : InodeTable) (update : Update) :
    RefreshedTable table (applyUpdate table update) := by
  unfold applyUpdate InodeTable.updateRemoteFile
  cases found : table.get update.ino with
  | none => exact .refl table
  | some entry =>
      dsimp only
      by_cases dirty : entry.isDirty = true
      · rw [if_pos dirty]
        exact .refl table
      · rw [if_neg dirty]
        refine RefreshedTable.trans (InodeTable.corresponding_put .refl found ?_)
          (InodeTable.corresponding_modify .refl _ _ ?_)
        · exact ⟨.of_fields rfl, rfl, rfl,
            rfl, fun isDirty => absurd isDirty dirty, id⟩
        · exact fun _ => ⟨.of_fields rfl,
            rfl, rfl, rfl, fun _ => ⟨rfl, rfl⟩, id⟩

/-! ## A sequence of removals -/

/-- The removals of a poll, one after the other. -/
def removeAll (now : Time) (inos : List Ino) (table : InodeTable) :
    InodeTable :=
  inos.foldl (fun current ino => (removeRemoteFile current ino now).2.1) table

theorem shrunk_removeAll (now : Time) (inos : List Ino) (table : InodeTable) :
    Shrunk table (removeAll now inos table) := by
  induction inos generalizing table with
  | nil => exact .refl table
  | cons ino inos ih =>
      exact (shrunk_removeRemoteFile table ino now).trans (ih _)

/-- Removals whose targets are not dirty touch nothing dirty. -/
theorem untouched_removeAll (now : Time) {inos : List Ino} {table : InodeTable}
    (tidy : Tidy table) (files : ∀ ino ∈ inos, IsFile table ino) {ino : Ino}
    {entry : InodeEntry} (found : table.get ino = some entry)
    (dirty : entry.isDirty = true)
    (spared : ∀ other ∈ inos, deletionTarget table other ≠ some ino) :
    Untouched table (removeAll now inos table) ino := by
  induction inos generalizing table entry with
  | nil => exact .refl found
  | cons first inos ih =>
      have firstFile := files first List.mem_cons_self
      have shrunk := shrunk_removeRemoteFile table first now
      have head := untouched_removeRemoteFile tidy found dirty firstFile
        (spared first List.mem_cons_self) now
      obtain ⟨_, kept, _, foundKept, _⟩ := head.entry
      apply head.trans
      apply ih (tidy.shrunk shrunk) _ foundKept
      · rw [head.isDirty found foundKept]
        exact dirty
      · exact fun other listed hit =>
          spared other (List.mem_cons_of_mem _ listed)
            (shrunk.deletionTarget hit)
      · exact fun other listed =>
          (files other (List.mem_cons_of_mem _ listed)).shrunk shrunk

/-- A removal drops no other entry. -/
theorem kept_removeRemoteFile {table : InodeTable} (tidy : Tidy table)
    {ino other : Ino} {entry : InodeEntry} (file : IsFile table other)
    (found : table.get ino = some entry) (distinct : ino ≠ other)
    (now : Time) : ∃ kept,
      (removeRemoteFile table other now).2.1.get ino = some kept := by
  have modified : ∀ (current : InodeTable) (target : Ino)
      (change : InodeEntry → InodeEntry) (old : InodeEntry),
      current.get ino = some old →
      ∃ kept, (current.modify target change).get ino = some kept := by
    intro current target change old got
    rw [InodeTable.get_modify]
    split <;> rename_i same
    · exact ⟨change old, by rw [← same, got]; rfl⟩
    · exact ⟨old, got⟩
  unfold removeRemoteFile
  split <;> rename_i foundOther
  · exact ⟨entry, found⟩
  rename_i otherEntry
  split
  · exact ⟨entry, found⟩
  dsimp only
  split
  · unfold InodeTable.unlinkOne
    split
    · exact ⟨entry, found⟩
    split
    · exact ⟨entry, found⟩
    dsimp only
    split
    · exact modified _ _ _ entry found
    · rw [InodeTable.get_put]
      split
      · exact ⟨_, rfl⟩
      · exact modified _ _ _ entry found
  · rw [InodeTable.remove_of_leaf foundOther
      (tidy.leaf foundOther (file _ foundOther))]
    apply modified _ _ _ entry
    rw [InodeTable.get_removePath, InodeTable.get_erase, if_neg distinct, found]

/-- Removals that leave an inode under its names and paths do not aim at it. -/
theorem spared_of_kept (now : Time) {inos : List Ino} {table : InodeTable}
    (tidy : Tidy table) (files : ∀ ino ∈ inos, IsFile table ino) {ino : Ino}
    (slots : ∀ dir name, slot table dir name = some ino →
      slot (removeAll now inos table) dir name = some ino)
    (paths : ∀ path, table.pathToInode path = some ino →
      (removeAll now inos table).pathToInode path = some ino) :
    ∀ other ∈ inos, deletionTarget table other ≠ some ino := by
  induction inos generalizing table with
  | nil => exact fun other listed => by cases listed
  | cons first inos ih =>
      have firstFile := files first List.mem_cons_self
      have head := shrunk_removeRemoteFile table first now
      have restFiles : ∀ other ∈ inos,
          IsFile (removeRemoteFile table first now).2.1 other :=
        fun other listed =>
          (files other (List.mem_cons_of_mem _ listed)).shrunk head
      have rest := shrunk_removeAll now inos (removeRemoteFile table first now).2.1
      have firstSpared : deletionTarget table first ≠ some ino := by
        intro hit
        rcases removeRemoteFile_hits tidy firstFile hit now with
          ⟨dir, name, had, lost⟩ | ⟨path, had, lost⟩
        · exact lost (rest.slot (slots dir name had))
        · exact lost (rest.path (paths path had))
      have later := ih (tidy.shrunk head) restFiles
        (fun dir name had => slots dir name (head.slot had))
        (fun path had => paths path (head.path had))
      intro other listed
      rcases List.mem_cons.mp listed with rfl | inRest
      · exact firstSpared
      by_cases same : other = first
      · exact same ▸ firstSpared
      intro hit
      apply later other inRest
      obtain ⟨entry, found, named⟩ := Option.bind_eq_some_iff.mp hit
      obtain ⟨kept, foundKept⟩ :=
        kept_removeRemoteFile tidy firstFile found same now
      obtain ⟨old, foundOld, narrow⟩ := head.entry foundKept
      obtain rfl := Option.some.inj (found.symm.trans foundOld)
      refine Option.bind_eq_some_iff.mpr ⟨kept, foundKept, ?_⟩
      rw [narrow.isDirty, narrow.hasOpenHandles, narrow.parent, narrow.name,
        narrow.fullPath]
      split at named <;> rename_i dirty
      · cases named
      rw [if_neg dirty]
      split at named <;> rename_i opened
      · rw [if_pos opened]
        exact rest.slot (slots _ _ named)
      · rw [if_neg opened]
        exact rest.path (paths _ named)

theorem wellFormed_removeAll (now : Time) {inos : List Ino}
    {table : InodeTable} (wf : table.WellFormed)
    (files : ∀ ino ∈ inos, IsFile table ino)
    (own : ∀ ino ∈ inos, ∀ target,
      deletionTarget table ino = some target → target = ino) :
    (removeAll now inos table).WellFormed := by
  induction inos generalizing table with
  | nil => exact wf
  | cons first inos ih =>
      have firstFile := files first List.mem_cons_self
      have head := shrunk_removeRemoteFile table first now
      apply ih (wellFormed_removeRemoteFile wf firstFile
        (own first List.mem_cons_self) now)
      · exact fun other listed =>
          (files other (List.mem_cons_of_mem _ listed)).shrunk head
      · exact fun other listed target hit =>
          own other (List.mem_cons_of_mem _ listed) target
            (head.deletionTarget hit)

/-! ## One poll -/

/-- The files that a poll of this listing deletes. -/
def pollDeletions (remoteEntries : List TreeEntry) (polledPrefixes : List Path)
    (table : InodeTable) : List Ino :=
  deletions remoteEntries polledPrefixes table.fileSnapshot

/-- The table of a poll: updates, removals, and stale listings dropped. -/
theorem applyPollDiff_table (remoteEntries : List TreeEntry)
    (polledPrefixes : List Path) (now : Time) (state : PollState) :
    ∃ updated : InodeTable, RefreshedTable state.table updated ∧
      RefreshedTable
        (removeAll now (pollDeletions remoteEntries polledPrefixes state.table)
          updated)
        (applyPollDiff remoteEntries polledPrefixes now state).table := by
  have updating : ∀ (changes : List Update) (current : PollState),
      RefreshedTable current.table (changes.foldl
        (fun (current : PollState) update =>
          let table := applyUpdate current.table update
          { current with
            table
            invalidated :=
              current.invalidated ++ [queueFileInvalidation table update.ino] })
        current).table := by
    intro changes
    induction changes with
    | nil => exact fun current => .refl current.table
    | cons change changes ih =>
        intro current
        let table := applyUpdate current.table change
        exact (refreshed_applyUpdate current.table change).trans
          (ih { current with
            table
            invalidated := current.invalidated ++
              [queueFileInvalidation table change.ino] })
  have removing : ∀ (inos : List Ino) (current : PollState),
      (inos.foldl
        (fun (current : PollState) ino =>
          let removed := removeRemoteFile current.table ino now
          { current with
            table := removed.2.1
            invalidated := current.invalidated ++ removed.2.2 })
        current).table = removeAll now inos current.table := by
    intro inos
    induction inos with
    | nil => exact fun current => rfl
    | cons ino inos ih => exact fun current => ih _
  refine ⟨_, updating (updates remoteEntries now state.table.fileSnapshot) state,
    ?_⟩
  rw [pollDeletions, ← removing]
  exact refreshed_foldl_invalidateChildren _ _ _

theorem files_pollDeletions {table : InodeTable} (wf : table.WellFormed)
    (remoteEntries : List TreeEntry) (polledPrefixes : List Path) :
    ∀ ino ∈ pollDeletions remoteEntries polledPrefixes table,
      IsFile table ino := by
  intro ino listed entry found
  obtain ⟨other, deleted, same⟩ := List.mem_map.mp listed
  obtain ⟨inValues, isFile⟩ := List.mem_filter.mp (List.mem_of_mem_filter deleted)
  obtain ⟨otherIno, foundOther⟩ := InodeTable.mem_values.mp inValues
  have key := (wf.key foundOther).1
  rw [← key, same, found] at foundOther
  obtain rfl := Option.some.inj foundOther
  simpa using isFile

theorem IsFile.refreshed {before after : InodeTable} {ino : Ino}
    (file : IsFile before ino) (refreshed : RefreshedTable before after) :
    IsFile after ino := by
  intro other got
  obtain ⟨entry, found, same⟩ := refreshed.backward got
  exact same.kind.trans (file entry found)

/-- A poll leaves a dirty inode untouched exactly when no file that it deletes
has the inode under its name or at its path. -/
theorem untouched_applyPollDiff_iff {state : PollState}
    (wf : state.table.WellFormed) (remoteEntries : List TreeEntry)
    (polledPrefixes : List Path) (now : Time) {ino : Ino} {entry : InodeEntry}
    (found : state.table.get ino = some entry) (dirty : entry.isDirty = true) :
    Untouched state.table
        (applyPollDiff remoteEntries polledPrefixes now state).table ino ↔
      ∀ other ∈ pollDeletions remoteEntries polledPrefixes state.table,
        deletionTarget state.table other ≠ some ino := by
  obtain ⟨updated, before, after⟩ :=
    applyPollDiff_table remoteEntries polledPrefixes now state
  have tidy := tidy_of_wellFormed (wf.similar before.similar)
  have files := fun other listed =>
    (files_pollDeletions wf remoteEntries polledPrefixes other listed).refreshed
      before
  have first := before.untouched found dirty
  obtain ⟨_, middle, _, foundMiddle, _⟩ := first.entry
  have middleDirty : middle.isDirty = true := by
    rw [first.isDirty found foundMiddle]
    exact dirty
  constructor
  · intro untouched other listed
    rw [← before.deletionTarget]
    apply spared_of_kept now tidy files _ _ other listed
    · intro dir name had
      rw [← after.slot]
      exact (untouched.slot dir name).mpr (before.slot dir name ▸ had)
    · intro path had
      rw [← after.path]
      exact (untouched.path path).mpr (before.path ▸ had)
  · intro spared
    have removed := untouched_removeAll now tidy files foundMiddle middleDirty
      fun other listed => by
        rw [before.deletionTarget]
        exact spared other listed
    obtain ⟨_, kept, _, foundKept, _⟩ := removed.entry
    have keptDirty : kept.isDirty = true := by
      rw [removed.isDirty foundMiddle foundKept]
      exact middleDirty
    exact first.trans (removed.trans (after.untouched foundKept keptDirty))

theorem wellFormed_applyPollDiff {state : PollState}
    (wf : state.table.WellFormed) (remoteEntries : List TreeEntry)
    (polledPrefixes : List Path) (now : Time)
    (own : ∀ ino ∈ pollDeletions remoteEntries polledPrefixes state.table,
      ∀ target, deletionTarget state.table ino = some target →
        target = ino) :
    (applyPollDiff remoteEntries polledPrefixes now state).table.WellFormed := by
  obtain ⟨updated, before, after⟩ :=
    applyPollDiff_table remoteEntries polledPrefixes now state
  have files := fun other listed =>
    (files_pollDeletions wf remoteEntries polledPrefixes other listed).refreshed
      before
  have removed := wellFormed_removeAll now (wf.similar before.similar) files
    fun ino listed target hit =>
      own ino listed target (before.deletionTarget ino ▸ hit)
  exact removed.similar after.similar

/-! ## One batch of the live feed -/

/-- One change keeps the tree in order and touches nothing dirty. -/
theorem applyFollowChange_keeps {state : FollowState}
    (wf : state.table.WellFormed) (now : Time) (change : FollowChange) :
    (applyFollowChange now state change).table.WellFormed ∧
      ∀ ino entry, state.table.get ino = some entry → entry.isDirty = true →
        Untouched state.table (applyFollowChange now state change).table
          ino := by
  have unchanged : state.table.WellFormed ∧ ∀ ino entry,
      state.table.get ino = some entry → entry.isDirty = true →
        Untouched state.table state.table ino :=
    ⟨wf, fun ino entry found _ => .refl found⟩
  unfold applyFollowChange
  split <;> rename_i materialized
  · dsimp only
    split <;> exact unchanged
  rename_i entry
  obtain ⟨gotByPath, isFile⟩ := Option.filter_eq_some_iff.mp materialized
  obtain ⟨found, live, _⟩ := wf.getByPath.mp gotByPath
  split <;> rename_i clean
  · exact unchanged
  have file : IsFile state.table entry.inode := by
    intro other foundOther
    obtain rfl := Option.some.inj (found.symm.trans foundOther)
    simpa using isFile
  have notRoot : entry.inode ≠ rootInode := by
    intro same
    obtain ⟨root, foundRoot, directory, _⟩ := wf.root
    have kind := file root (same ▸ foundRoot)
    rw [directory] at kind
    cases kind
  have own : ∀ target, deletionTarget state.table entry.inode = some target →
      target = entry.inode :=
    fun target => deletionTarget_of_live wf found notRoot live
  split
  · refine ⟨wellFormed_removeRemoteFile wf file own now, ?_⟩
    intro ino other foundOther dirty
    apply untouched_removeRemoteFile (tidy_of_wellFormed wf) foundOther dirty
      file
    intro hit
    obtain rfl := own ino hit
    obtain rfl := Option.some.inj (found.symm.trans foundOther)
    exact clean dirty
  · have merged := refreshed_mergeRemoteFile state.table entry.inode
      change.xetHash change.size
      (change.mtime.orElse fun _ => change.uploadedAt)
    exact ⟨wf.similar merged.similar, fun ino other foundOther dirty =>
      merged.untouched foundOther dirty⟩

theorem applyFollowChanges_keeps {state : PollState}
    (wf : state.table.WellFormed) (changes : List FollowChange) (now : Time) :
    (applyFollowChanges changes now state).table.WellFormed ∧
      ∀ ino entry, state.table.get ino = some entry → entry.isDirty = true →
        Untouched state.table (applyFollowChanges changes now state).table
          ino := by
  have batch : ∀ (changes : List FollowChange) (current : FollowState),
      current.table.WellFormed →
      (changes.foldl (applyFollowChange now) current).table.WellFormed ∧
        ∀ ino entry, current.table.get ino = some entry →
          entry.isDirty = true → Untouched current.table
            (changes.foldl (applyFollowChange now) current).table ino := by
    intro changes
    induction changes with
    | nil => exact fun current wf => ⟨wf, fun ino entry found _ => .refl found⟩
    | cons change changes ih =>
        intro current wf
        obtain ⟨nextWf, first⟩ := applyFollowChange_keeps wf now change
        obtain ⟨lastWf, rest⟩ := ih _ nextWf
        refine ⟨lastWf, fun ino entry found dirty => ?_⟩
        have untouched := first ino entry found dirty
        obtain ⟨_, kept, _, foundKept, _⟩ := untouched.entry
        apply untouched.trans (rest ino kept foundKept _)
        rw [untouched.isDirty found foundKept]
        exact dirty
  obtain ⟨batchWf, batchUntouched⟩ := batch changes
    { table := state.table
      invalidated := state.invalidated
      dirs := [] } wf
  unfold applyFollowChanges
  have dropped := fun (dirs : List Ino) (table : InodeTable) =>
    refreshed_foldl_invalidateChildren dirs id table
  refine ⟨batchWf.similar (dropped _ _).similar, fun ino entry found dirty => ?_⟩
  have untouched := batchUntouched ino entry found dirty
  obtain ⟨_, kept, _, foundKept, _⟩ := untouched.entry
  apply untouched.trans ((dropped _ _).untouched foundKept _)
  rw [untouched.isDirty found foundKept]
  exact dirty

end HfMount.Poll
