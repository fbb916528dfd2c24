import HfMount.Poll.RemoteTree
import HfMount.Poll.RemovedFiles
import HfMount.Vfs.StaleViews

/-!
# When the table mirrors the remote

After a complete round a directory that is still loaded should have the
children that the remote directory has.  The round compares the files, and
drops the listing of a directory that has something new; it does not look for
directories that are gone.
-/

namespace HfMount.Poll

open SlashPath Inode

/-! ## Updates -/

/-- A file after the updates of a poll. -/
def updatedEntry (remoteEntries : List TreeEntry) (now : Time)
    (entry : InodeEntry) : InodeEntry :=
  match diffUpdate remoteEntries now entry with
  | none => entry
  | some update =>
      { entry with
        xetHash := update.hash
        etag := update.etag
        size := update.size
        cipherSize := update.cipherSize
        mtime := update.mtime
        stagingIsCurrent := false
        needsSizeProbe := update.needsSizeProbe }

theorem diffUpdate_ino {remoteEntries : List TreeEntry} {now : Time}
    {entry : InodeEntry} {update : Update}
    (updated : diffUpdate remoteEntries now entry = some update) :
    update.ino = entry.inode ∧ entry.isDirty = false := by
  unfold diffUpdate at updated
  split at updated <;> rename_i clean
  · cases updated
  split at updated
  · cases updated
  dsimp only at updated
  split at updated
  · obtain rfl := Option.some.inj updated
    exact ⟨rfl, by simpa using clean⟩
  · cases updated

/-- The update of one file. -/
theorem get_applyUpdate {table : InodeTable} {remoteEntries : List TreeEntry}
    {now : Time} {entry : InodeEntry} {update : Update}
    (found : table.get entry.inode = some entry)
    (updated : diffUpdate remoteEntries now entry = some update) (ino : Ino) :
    (applyUpdate table update).get ino =
      if ino = entry.inode then some (updatedEntry remoteEntries now entry)
      else table.get ino := by
  obtain ⟨sameIno, clean⟩ := diffUpdate_ino updated
  unfold applyUpdate InodeTable.updateRemoteFile
  simp only [sameIno, found, clean, Bool.false_eq_true, if_false, if_true]
  rw [InodeTable.get_modify, InodeTable.get_put_self]
  split <;> rename_i here
  · simp [updatedEntry, updated]
  · exact InodeTable.get_put_of_ne _ here _

/-- The updates of a poll change the files of the snapshot, each on its own. -/
theorem get_updates (remoteEntries : List TreeEntry) (now : Time)
    {snapshot : List InodeEntry} {table : InodeTable}
    (distinct : (snapshot.map (·.inode)).Nodup)
    (current : ∀ entry ∈ snapshot, table.get entry.inode = some entry) :
    (∀ ino, ino ∉ snapshot.map (·.inode) →
      ((updates remoteEntries now snapshot).foldl applyUpdate table).get ino =
        table.get ino) ∧
    ∀ entry ∈ snapshot,
      ((updates remoteEntries now snapshot).foldl applyUpdate table).get
        entry.inode = some (updatedEntry remoteEntries now entry) := by
  induction snapshot generalizing table with
  | nil => exact ⟨fun _ _ => rfl, fun _ listed => by cases listed⟩
  | cons first snapshot ih =>
      obtain ⟨fresh, rest⟩ := List.nodup_cons.mp distinct
      have found := current first List.mem_cons_self
      obtain ⟨next, isNext, get⟩ : ∃ next : InodeTable,
          (updates remoteEntries now (first :: snapshot)).foldl applyUpdate
            table = (updates remoteEntries now snapshot).foldl applyUpdate
              next ∧
          ∀ ino, next.get ino = if ino = first.inode then
              some (updatedEntry remoteEntries now first)
            else table.get ino := by
        cases updated : diffUpdate remoteEntries now first with
        | none =>
            refine ⟨table, by simp [updates, updated], ?_⟩
            intro ino
            split <;> rename_i here
            · rw [here, found, updatedEntry, updated]
            · rfl
        | some update =>
            exact ⟨applyUpdate table update, by simp [updates, updated],
              get_applyUpdate found updated⟩
      have kept : ∀ entry ∈ snapshot, entry.inode ≠ first.inode := by
        intro entry listed same
        exact fresh (List.mem_map.mpr ⟨entry, listed, same⟩)
      have still : ∀ entry ∈ snapshot, next.get entry.inode = some entry := by
        intro entry listed
        rw [get, if_neg (kept entry listed)]
        exact current entry (List.mem_cons_of_mem _ listed)
      obtain ⟨others, mine⟩ := ih rest still
      rw [isNext]
      constructor
      · intro ino absent
        rw [List.map_cons, List.mem_cons, not_or] at absent
        rw [others ino absent.2, get, if_neg absent.1]
      · intro entry listed
        rcases List.mem_cons.mp listed with rfl | later
        · rw [others _ fresh, get, if_pos rfl]
        · exact mine entry later

/-- Each inode is in the snapshot of the files once. -/
theorem nodup_fileSnapshot {table : InodeTable} (wf : table.WellFormed) :
    (table.fileSnapshot.map (·.inode)).Nodup := by
  have all : (table.values.map (·.inode)).Nodup := by
    have keys : table.values.map (·.inode) = table.inodes.keys := by
      unfold InodeTable.values AList.keys
      rw [List.map_map]
      apply List.map_congr_left
      intro listed member
      exact (wf.key (AList.mem_lookup_iff.mpr member)).1
    rw [keys]
    exact table.inodes.keys_nodup
  exact all.sublist (List.filter_sublist.map _)

/-- A table after the updates of a poll of it. -/
def updatedTable (remoteEntries : List TreeEntry) (now : Time)
    (table : InodeTable) : InodeTable :=
  (updates remoteEntries now table.fileSnapshot).foldl applyUpdate table

theorem get_updatedTable {table : InodeTable} (wf : table.WellFormed)
    (remoteEntries : List TreeEntry) (now : Time) {ino : Ino}
    {entry : InodeEntry} (found : table.get ino = some entry) :
    (updatedTable remoteEntries now table).get ino =
      some (if entry.kind = .file then updatedEntry remoteEntries now entry
        else entry) := by
  have inSnapshot : ∀ other, other ∈ table.fileSnapshot ↔
      (∃ place, table.get place = some other) ∧ other.kind = .file := by
    intro other
    simp [InodeTable.fileSnapshot, InodeTable.mem_values]
  have key := (wf.key found).1
  have current : ∀ other ∈ table.fileSnapshot,
      table.get other.inode = some other := by
    intro other listed
    obtain ⟨⟨_, foundOther⟩, _⟩ := (inSnapshot other).mp listed
    rw [(wf.key foundOther).1]
    exact foundOther
  obtain ⟨others, mine⟩ :=
    get_updates remoteEntries now (nodup_fileSnapshot wf) current
  split <;> rename_i file
  · rw [← key]
    exact mine entry ((inSnapshot entry).mpr ⟨⟨ino, found⟩, file⟩)
  · rw [updatedTable, others, found]
    intro listed
    obtain ⟨other, isOther, same⟩ := List.mem_map.mp listed
    obtain ⟨⟨_, foundOther⟩, isFile⟩ := (inSnapshot other).mp isOther
    rw [← (wf.key foundOther).1, same, found] at foundOther
    obtain rfl := Option.some.inj foundOther
    exact file isFile

/-- The size of the object of a file. -/
def localObjectSize (entry : InodeEntry) : Nat := entry.cipherSize.getD entry.size

/-- The file or directory is that of the remote. -/
inductive Agrees (entry : InodeEntry) (remote : TreeEntry) : Prop where
  | file (kind : entry.kind = .file) (remoteKind : remote.entryType = .file)
      (hash : entry.xetHash = remote.xetHash)
      (size : localObjectSize entry = remote.size.getD 0)
  | directory (kind : entry.kind = .directory)
      (remoteKind : remote.entryType = .directory)

/-- An updated clean file has the hash and the size of the listed one. -/
theorem agrees_updatedEntry {remoteEntries : List TreeEntry} {now : Time}
    {entry : InodeEntry} {remote : TreeEntry} (file : entry.kind = .file)
    (clean : entry.isDirty = false) (isFile : remote.entryType = .file)
    (listed : remoteMap remoteEntries entry.fullPath = some remote) :
    Agrees (updatedEntry remoteEntries now entry) remote := by
  have kind : (updatedEntry remoteEntries now entry).kind = .file := by
    unfold updatedEntry
    split <;> exact file
  unfold updatedEntry at kind ⊢
  cases updated : diffUpdate remoteEntries now entry with
  | none =>
      simp only [diffUpdate, clean, Bool.false_eq_true, if_false, listed,
        ite_eq_right_iff, reduceCtorEq, imp_false, Bool.or_eq_true, not_or,
        bne_iff_ne, ne_eq, Decidable.not_not] at updated
      obtain ⟨unchanged, size⟩ := updated
      refine .file file isFile ?_ size.symm
      unfold contentChanged at unchanged
      split at unchanged <;> rename_i hashed
      · have same : remote.xetHash = entry.xetHash := by simpa using unchanged
        exact same.symm
      · simp only [Bool.or_eq_true, not_or, Option.not_isSome_iff_eq_none]
          at hashed
        rw [hashed.1, hashed.2]
  | some update =>
      unfold diffUpdate at updated
      rw [clean, listed] at updated
      simp only [Bool.false_eq_true, if_false] at updated
      split at updated
      · obtain rfl := Option.some.inj updated
        refine .file file isFile rfl ?_
        unfold localObjectSize
        cases entry.cipherSize <;> simp
      · cases updated

/-! ## Dropped listings -/

theorem mem_dirsToInvalidate {table : InodeTable} {paths : List Path}
    {ino : Ino} :
    ino ∈ (dirsToInvalidate table paths).map (·.1) ↔
      ∃ path ∈ paths, table.getByPath path = none ∧
        (table.nearestDirAncestor path).1 = ino ∧
        table.isChildrenLoaded ino = true := by
  -- Whatever one path does to the list, the whole scan does for all paths.
  have all : ∀ {step : List (Ino × Path) → Path → List (Ino × Path)}
      {adds : Path → Prop},
      (∀ dirs path, ino ∈ (step dirs path).map (·.1) ↔
        ino ∈ dirs.map (·.1) ∨ adds path) →
      ∀ (paths : List Path) (dirs : List (Ino × Path)),
        ino ∈ (paths.foldl step dirs).map (·.1) ↔
          ino ∈ dirs.map (·.1) ∨ ∃ path ∈ paths, adds path := by
    intro step adds one paths
    induction paths with
    | nil => simp
    | cons path paths ih =>
        intro dirs
        rw [List.foldl_cons, ih, List.exists_mem_cons_iff, ← or_assoc, one]
  have start : ino ∈ ([] : List (Ino × Path)).map (·.1) ↔ False := by simp
  refine (all ?_ paths []).trans
    ((or_congr_left start).trans (iff_of_eq (false_or _)))
  intro dirs path
  cases mapped : table.getByPath path with
  | some entry => simp
  | none =>
      generalize table.nearestDirAncestor path = dir
      dsimp only
      split <;> rename_i adds
      · simp only [Bool.and_eq_true] at adds
        rw [List.map_append, List.mem_append, List.map_singleton,
          List.mem_singleton]
        refine or_congr Iff.rfl ⟨?_, ?_⟩
        · rintro rfl
          exact ⟨rfl, rfl, adds.1⟩
        · rintro ⟨_, rfl, _⟩
          rfl
      · constructor
        · exact Or.inl
        · rintro (earlier | ⟨_, rfl, loaded⟩)
          · exact earlier
          · rw [loaded] at adds
            simpa using adds

theorem get_foldl_invalidateChildren (dirs : List (Ino × Path))
    (table : InodeTable) (ino : Ino) :
    (dirs.foldl (fun current dir => current.invalidateChildren dir.1)
        table).get ino =
      (table.get ino).map fun entry =>
        if ino ∈ dirs.map (·.1) then { entry with childrenLoadedAt := none }
        else entry := by
  induction dirs generalizing table with
  | nil => simp
  | cons dir dirs ih =>
      rw [List.foldl_cons, ih, InodeTable.invalidateChildren,
        InodeTable.get_modify]
      by_cases here : ino = dir.1
      · subst here
        cases table.get dir.1 <;> simp
      · simp only [here, if_false, List.map_cons, List.mem_cons, false_or]

/-- What is missing in a directory of the tree is looked for there. -/
theorem nearestDirAncestor_of_parent {table : InodeTable}
    (wf : table.WellFormed) {ino : Ino} {dir : InodeEntry} {path : Path}
    (found : table.get ino = some dir) (directory : dir.kind = .directory)
    (parent : parentPath path = dir.fullPath) :
    (table.nearestDirAncestor path).1 = ino := by
  have key := (wf.key found).1
  have atPath : table.getByPath dir.fullPath = some dir := by
    rw [wf.getByPath]
    exact ⟨key ▸ found, InodeEntry.isLive_of_directory directory, rfl⟩
  have isDir : table.getDirIno (parentPath path) = some ino := by
    rw [parent, InodeTable.getDirIno, atPath, Option.filter_some]
    simp [directory, key]
  rw [InodeTable.nearestDirAncestor, InodeTable.nearestDirAncestorFrom, isDir]

/-! ## The table of a round -/

/-- A table after the updates and the removals of a poll of it. -/
def prunedTable (remoteEntries : List TreeEntry) (polledPrefixes : List Path)
    (now : Time) (table : InodeTable) : InodeTable :=
  removeAll now (pollDeletions remoteEntries polledPrefixes table)
    (updatedTable remoteEntries now table)

/-- The directories whose listing a poll of the table drops. -/
def droppedDirs (remoteEntries : List TreeEntry) (polledPrefixes : List Path)
    (now : Time) (table : InodeTable) : List Ino :=
  (dirsToInvalidate (prunedTable remoteEntries polledPrefixes now table)
    (remoteEntries.map (·.path))).map (·.1)

section

variable {remote : RemoteTree} {table : InodeTable}
  {entries : List TreeEntry} {prefixes : List Path} {now : Time} {ino : Ino}

theorem get_applyPollDiff (state : PollState) (ino : Ino) :
    (applyPollDiff entries prefixes now state).table.get ino =
      ((prunedTable entries prefixes now state.table).get ino).map fun entry =>
        if ino ∈ droppedDirs entries prefixes now state.table then
          { entry with childrenLoadedAt := none }
        else entry := by
  rw [Vfs.applyPollDiff_eq]
  exact get_foldl_invalidateChildren _ _ ino

theorem refreshed_updatedTable (entries : List TreeEntry) (now : Time)
    (table : InodeTable) :
    RefreshedTable table (updatedTable entries now table) := by
  unfold updatedTable
  generalize updates entries now table.fileSnapshot = changes
  induction changes generalizing table with
  | nil => exact .refl table
  | cons change changes ih =>
      exact (refreshed_applyUpdate table change).trans (ih _)

theorem mem_pollDeletions (wf : table.WellFormed) {entry : InodeEntry}
    (found : table.get ino = some entry) :
    ino ∈ pollDeletions entries prefixes table ↔
      entry.kind = .file ∧ isDeleted entries prefixes entry = true := by
  unfold pollDeletions deletions
  constructor
  · intro listed
    obtain ⟨other, inSnapshot, same⟩ := List.mem_map.mp listed
    obtain ⟨isFile, deleted⟩ := List.mem_filter.mp inSnapshot
    obtain ⟨inValues, file⟩ := List.mem_filter.mp isFile
    obtain ⟨place, foundOther⟩ := InodeTable.mem_values.mp inValues
    rw [← (wf.key foundOther).1, same, found] at foundOther
    obtain rfl := Option.some.inj foundOther
    exact ⟨by simpa using file, deleted⟩
  · rintro ⟨file, deleted⟩
    refine List.mem_map.mpr ⟨entry, List.mem_filter.mpr ⟨?_, deleted⟩,
      (wf.key found).1⟩
    exact List.mem_filter.mpr
      ⟨InodeTable.mem_values.mpr ⟨ino, found⟩, by simpa using file⟩

theorem cleared_prunedTable (wf : table.WellFormed)
    (own : DeletesOwn entries prefixes table) (now : Time) :
    (prunedTable entries prefixes now table).WellFormed ∧
      Cleared (updatedTable entries now table)
        (prunedTable entries prefixes now table)
        (· ∈ pollDeletions entries prefixes table) := by
  have refreshed := refreshed_updatedTable entries now table
  have wfUpdated := wf.similar refreshed.similar
  have files : ∀ ino ∈ pollDeletions entries prefixes table,
      IsFile (updatedTable entries now table) ino :=
    fun ino listed =>
      (files_pollDeletions wf entries prefixes ino listed).refreshed refreshed
  have ownUpdated : ∀ ino ∈ pollDeletions entries prefixes table, ∀ target,
      deletionTarget (updatedTable entries now table) ino = some target →
      target = ino := by
    intro ino listed target hit
    rw [refreshed.deletionTarget] at hit
    exact own ino listed target hit
  refine ⟨wellFormed_removeAll now wfUpdated files ownUpdated,
    cleared_removeAll now wfUpdated files ?_ ownUpdated⟩
  intro ino listed entry found
  obtain ⟨old, foundOld, same⟩ := refreshed.backward found
  have deleted := ((mem_pollDeletions wf foundOld).mp listed).2
  have clean : old.isDirty = false := by
    unfold isDeleted at deleted
    simp only [Bool.and_eq_true, Bool.not_eq_true'] at deleted
    exact deleted.1.1
  unfold InodeEntry.isDirty at clean ⊢
  rw [same.dirtyGeneration]
  exact clean

/-- Nothing is at the path of the entry, or a clean file where the remote has a
directory. -/
def IsNew (table : InodeTable) (remoteEntry : TreeEntry) : Prop :=
  ∀ entry, table.getByPath remoteEntry.path = some entry →
    entry.kind = .file ∧ entry.isDirty = false ∧
      remoteEntry.entryType = .directory

theorem remoteMap_isNone_iff (known : ∀ entry ∈ entries, entry ∈ remote.entries)
    {remoteEntry : TreeEntry} (listed : remoteEntry ∈ entries) :
    remoteMap entries remoteEntry.path = none ↔
      remoteEntry.entryType = .directory := by
  constructor
  · intro absent
    refine (remote.kind remoteEntry (known _ listed)).resolve_left ?_
    intro file
    rw [(remoteMap_eq_some known).mpr ⟨listed, file, rfl⟩] at absent
    cases absent
  · intro directory
    cases found : remoteMap entries remoteEntry.path with
    | none => rfl
    | some other =>
        obtain ⟨inEntries, file, same⟩ := (remoteMap_eq_some known).mp found
        obtain rfl := remote.unique other (known other inEntries) remoteEntry
          (known _ listed) same
        rw [directory] at file
        cases file

/-- A remote entry of a loaded directory is missing in the pruned table exactly
when it is new. -/
theorem missing_iff_isNew (wf : table.WellFormed)
    (own : DeletesOwn entries prefixes table)
    (polled : Polled remote table entries prefixes)
    {remoteEntry : TreeEntry} (listed : remoteEntry ∈ entries) :
    (prunedTable entries prefixes now table).getByPath remoteEntry.path =
      none ↔ IsNew table remoteEntry := by
  obtain ⟨wfPruned, cleared⟩ := cleared_prunedTable wf own now
  have mapped : ∀ ino, (prunedTable entries prefixes now table).pathToInode
      remoteEntry.path = some ino ↔
        table.pathToInode remoteEntry.path = some ino ∧
          ino ∉ pollDeletions entries prefixes table := by
    intro ino
    rw [cleared.path, (refreshed_updatedTable entries now table).path]
  have known := fun entry member => ((polled.entries entry).mp member).1
  have loaded := polled.prefixes _ ((polled.entries remoteEntry).mp listed).2
  have deleted : ∀ ino entry, table.get ino = some entry →
      entry.fullPath = remoteEntry.path →
      (ino ∈ pollDeletions entries prefixes table ↔ entry.kind = .file ∧
        entry.isDirty = false ∧ remoteEntry.entryType = .directory) := by
    intro ino entry found atPath
    rw [mem_pollDeletions wf found, isDeleted, atPath]
    simp only [Bool.and_eq_true, Bool.not_eq_true', Option.isNone_iff_eq_none,
      decide_eq_true_eq, loaded, and_true,
      remoteMap_isNone_iff known listed]
  constructor
  · intro missing entry atPath
    obtain ⟨ino, isMapped, found⟩ := Option.bind_eq_some_iff.mp atPath
    obtain ⟨_, again, _, fullPath⟩ := wf.path.mp isMapped
    obtain rfl := Option.some.inj (found.symm.trans again)
    rw [← deleted ino entry found fullPath]
    by_contra kept
    have still := (mapped ino).mpr ⟨isMapped, kept⟩
    obtain ⟨other, got, _⟩ := wfPruned.path.mp still
    rw [InodeTable.getByPath, still, Option.bind_some, got] at missing
    cases missing
  · intro isNew
    cases got : (prunedTable entries prefixes now table).getByPath
        remoteEntry.path with
    | none => rfl
    | some other =>
        obtain ⟨ino, still, _⟩ := Option.bind_eq_some_iff.mp got
        obtain ⟨isMapped, kept⟩ := (mapped ino).mp still
        obtain ⟨entry, found, _, fullPath⟩ := wf.path.mp isMapped
        refine absurd ?_ kept
        rw [deleted ino entry found fullPath]
        apply isNew
        rw [InodeTable.getByPath, isMapped, Option.bind_some, found]

end

end HfMount.Poll
