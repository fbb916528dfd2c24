import HfMount.Poll.Round

/-!
# What a complete round knows of the remote

A listing that succeeds gives the files and directories of one remote
directory.  A complete round has listed every loaded directory, or knows from
the listing of its parent, or of a directory further up, that it is gone.
-/

namespace HfMount.Poll

open SlashPath Inode

/-- The files and directories of the remote. -/
structure RemoteTree where
  entries : List TreeEntry
  unique : ∀ left ∈ entries, ∀ right ∈ entries, left.path = right.path →
    left = right
  kind : ∀ entry ∈ entries,
    entry.entryType = .file ∨ entry.entryType = .directory
  named : ∀ entry ∈ entries, entry.path ≠ []
  closed : ∀ entry ∈ entries, parentPath entry.path = [] ∨
    ∃ dir ∈ entries, dir.path = parentPath entry.path ∧
      dir.entryType = .directory

/-- The loaded directories have been asked for, and a listing that succeeds is
that of the remote; any listing may fail. -/
structure Answered (remote : RemoteTree) (table : InodeTable)
    (results : Listings) : Prop where
  asked : ∀ dir ∈ table.loadedDirPrefixes, ∃ answer, (dir, answer) ∈ results
  only : ∀ dir answer, (dir, answer) ∈ results →
    dir ∈ table.loadedDirPrefixes
  honest : ∀ dir entries, (dir, .ok entries) ∈ results →
    ∀ entry, entry ∈ entries ↔
      entry ∈ remote.entries ∧ parentPath entry.path = dir

/-- The entries and the prefixes of a poll cover the loaded directories. -/
structure Polled (remote : RemoteTree) (table : InodeTable)
    (entries : List TreeEntry) (prefixes : List Path) : Prop where
  prefixes : ∀ dir ∈ table.loadedDirPrefixes, dir ∈ prefixes
  entries : ∀ entry, entry ∈ entries ↔ entry ∈ remote.entries ∧
    parentPath entry.path ∈ table.loadedDirPrefixes

section

variable {remote : RemoteTree} {table : InodeTable} {results : Listings}

theorem mem_allEntries {entry : TreeEntry} :
    entry ∈ allEntries results ↔
      ∃ dir entries, (dir, .ok entries) ∈ results ∧ entry ∈ entries := by
  unfold allEntries
  rw [List.mem_flatMap]
  constructor
  · rintro ⟨⟨dir, answer⟩, inResults, member⟩
    cases answer with
    | error error => cases member
    | ok entries => exact ⟨dir, entries, inResults, member⟩
  · rintro ⟨dir, entries, inResults, member⟩
    exact ⟨_, inResults, member⟩

/-- The directory was listed, or the remote has no such directory. -/
def ListedOrGone (remote : RemoteTree) (results : Listings) (dir : Path) :
    Prop :=
  dir ∈ listedPrefixes results ∨ dir ≠ [] ∧
    ∀ entry ∈ remote.entries, entry.entryType = .directory → entry.path ≠ dir

theorem listedOrGone_of_confirmed (answered : Answered remote table results)
    {polled : List Path} (known : ∀ dir ∈ polled, ListedOrGone remote results dir)
    (failed : Path) :
    ∀ dir ∈ confirmDeleted (allEntries results) polled failed,
      ListedOrGone remote results dir := by
  intro dir member
  unfold confirmDeleted at member
  split at member <;> rename_i confirmed
  · rcases List.mem_append.mp member with earlier | new
    · exact known dir earlier
    · obtain rfl := List.mem_singleton.mp new
      simp only [Bool.and_eq_true, decide_eq_true_eq, Bool.not_eq_true',
        List.any_eq_false, not_and] at confirmed
      obtain ⟨parentPolled, absent⟩ := confirmed
      by_cases root : dir = []
      · subst root
        exact known [] parentPolled
      refine Or.inr ⟨root, ?_⟩
      rintro entry inRemote directory rfl
      rcases known _ parentPolled with listed | ⟨notRoot, gone⟩
      · obtain ⟨entries, inResults⟩ := mem_listedPrefixes.mp listed
        have inEntries :=
          (answered.honest _ _ inResults entry).mpr ⟨inRemote, rfl⟩
        exact absent entry
          (mem_allEntries.mpr ⟨_, entries, inResults, inEntries⟩) directory rfl
      · rcases remote.closed entry inRemote with atRoot | ⟨dir, inDirs, same,
          isDirectory⟩
        · exact notRoot atRoot
        · exact gone dir inDirs isDirectory same
  · exact known dir member

theorem listedOrGone_of_polled (answered : Answered remote table results)
    {dir : Path} (polled : dir ∈ polledPrefixes results) :
    ListedOrGone remote results dir := by
  have all : ∀ (failed : List Path) (polled : List Path),
      (∀ dir ∈ polled, ListedOrGone remote results dir) →
      ∀ dir ∈ failed.foldl (confirmDeleted (allEntries results)) polled,
        ListedOrGone remote results dir := by
    intro failed
    induction failed with
    | nil => exact fun _ known => known
    | cons first failed ih =>
        intro polled known
        exact ih _ (listedOrGone_of_confirmed answered known first)
  exact all _ _ (fun _ listed => Or.inl listed) dir polled

/-- A complete round has every remote entry of every loaded directory. -/
theorem polled_of_complete (answered : Answered remote table results)
    (complete : (roundOutcome results).complete = true) :
    Polled remote table (allEntries results) (polledPrefixes results) := by
  have prefixes : ∀ dir ∈ table.loadedDirPrefixes,
      dir ∈ polledPrefixes results := by
    intro dir loaded
    obtain ⟨answer, inResults⟩ := answered.asked dir loaded
    exact mem_polledPrefixes_of_complete complete inResults
  refine ⟨prefixes, ?_⟩
  intro entry
  constructor
  · intro member
    obtain ⟨dir, entries, inResults, inEntries⟩ := mem_allEntries.mp member
    obtain ⟨inRemote, rfl⟩ :=
      (answered.honest dir entries inResults entry).mp inEntries
    exact ⟨inRemote, answered.only _ _ inResults⟩
  · rintro ⟨inRemote, loaded⟩
    rcases listedOrGone_of_polled answered (prefixes _ loaded) with listed |
      ⟨notRoot, gone⟩
    · obtain ⟨entries, inResults⟩ := mem_listedPrefixes.mp listed
      exact mem_allEntries.mpr ⟨_, entries, inResults,
        (answered.honest _ _ inResults entry).mpr ⟨inRemote, rfl⟩⟩
    · rcases remote.closed entry inRemote with atRoot | ⟨dir, inDirs, same,
        isDirectory⟩
      · exact absurd atRoot notRoot
      · exact absurd same (gone dir inDirs isDirectory)

end

/-! ## The files of the listings -/

/-- The listed file at a path is the file that the remote has there. -/
theorem remoteMap_eq_some {remote : RemoteTree} {entries : List TreeEntry}
    (known : ∀ entry ∈ entries, entry ∈ remote.entries) {path : Path}
    {entry : TreeEntry} :
    remoteMap entries path = some entry ↔
      entry ∈ entries ∧ entry.entryType = .file ∧ entry.path = path := by
  unfold remoteMap
  constructor
  · intro found
    have member := List.mem_of_find?_eq_some found
    obtain ⟨inEntries, file⟩ := List.mem_filter.mp (List.mem_reverse.mp member)
    have atPath := List.find?_some found
    exact ⟨inEntries, by simpa using file, by simpa using atPath⟩
  · rintro ⟨inEntries, file, atPath⟩
    have listed : entry ∈ (entries.filter (·.entryType = .file)).reverse :=
      List.mem_reverse.mpr (List.mem_filter.mpr ⟨inEntries, by simp [file]⟩)
    cases found : (entries.filter (·.entryType = .file)).reverse.find?
        (·.path = path) with
    | none =>
        have absent := List.find?_eq_none.mp found entry listed
        simp [atPath] at absent
    | some other =>
        have member := List.mem_of_find?_eq_some found
        have otherPath := List.find?_some found
        have inOthers :=
          List.mem_of_mem_filter (List.mem_reverse.mp member)
        rw [remote.unique other (known other inOthers) entry
          (known entry inEntries) ((by simpa using otherPath : other.path =
            path).trans atPath.symm)]

end HfMount.Poll
