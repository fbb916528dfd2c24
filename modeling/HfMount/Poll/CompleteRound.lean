import HfMount.Poll.Mirror

/-!
# Complete rounds and removed directories

A complete round brings every loaded directory in step with the remote, or
drops its listing, except for the directories among its children: a directory
that the remote has lost, or has turned into a file, stays.
-/

namespace HfMount.Poll

open SlashPath Inode

section

variable {remote : RemoteTree} {table : InodeTable}
  {entries : List TreeEntry} {prefixes : List Path} {now : Time} {ino : Ino}

theorem directory_prunedTable (wf : table.WellFormed)
    (own : DeletesOwn entries prefixes table) {dir : InodeEntry}
    (found : table.get ino = some dir) (directory : dir.kind = .directory)
    (now : Time) :
    ∃ other, (prunedTable entries prefixes now table).get ino = some other ∧
      dir.SamePlace other ∧ other.childrenLoadedAt = dir.childrenLoadedAt ∧
      ∀ child, child ∈ other.children ↔ child ∈ dir.children ∧
        child.ino ∉ pollDeletions entries prefixes table := by
  have updated := get_updatedTable wf entries now found
  rw [directory, if_neg (by decide)] at updated
  exact (cleared_prunedTable wf own now).2.directory ino dir updated directory

/-- The listing of a loaded directory is dropped exactly when the remote has
something new there. -/
theorem mem_droppedDirs_iff (wf : table.WellFormed)
    (own : DeletesOwn entries prefixes table)
    (polled : Polled remote table entries prefixes) {dir : InodeEntry}
    (found : table.get ino = some dir) (directory : dir.kind = .directory)
    (loaded : dir.childrenLoaded = true) :
    ino ∈ droppedDirs entries prefixes now table ↔
      ∃ remoteEntry ∈ remote.entries,
        parentPath remoteEntry.path = dir.fullPath ∧
          IsNew table remoteEntry := by
  have wfPruned := (cleared_prunedTable wf own now).1
  have nearest : ∀ ino dir path, table.get ino = some dir →
      dir.kind = .directory → parentPath path = dir.fullPath →
      ((prunedTable entries prefixes now table).nearestDirAncestor path).1 =
        ino := by
    intro ino dir path found directory parent
    obtain ⟨other, got, place, _⟩ :=
      directory_prunedTable wf own found directory now
    exact nearestDirAncestor_of_parent wfPruned got
      (place.kind.trans directory) (parent.trans place.fullPath.symm)
  unfold droppedDirs
  rw [mem_dirsToInvalidate]
  constructor
  · rintro ⟨path, listed, missing, isNearest, _⟩
    obtain ⟨remoteEntry, inEntries, rfl⟩ := List.mem_map.mp listed
    obtain ⟨inRemote, parentLoaded⟩ :=
      (polled.entries remoteEntry).mp inEntries
    obtain ⟨other, otherDir, foundOther, isDirectory, _, parent⟩ :=
      mem_loadedDirPrefixes.mp parentLoaded
    rw [nearest other otherDir _ foundOther isDirectory parent.symm]
      at isNearest
    subst isNearest
    obtain rfl := Option.some.inj (found.symm.trans foundOther)
    exact ⟨remoteEntry, inRemote, parent.symm,
      (missing_iff_isNew wf own polled inEntries).mp missing⟩
  · rintro ⟨remoteEntry, inRemote, parent, isNew⟩
    have parentLoaded : parentPath remoteEntry.path ∈
        table.loadedDirPrefixes :=
      mem_loadedDirPrefixes.mpr
        ⟨ino, dir, found, directory, loaded, parent.symm⟩
    have inEntries :=
      (polled.entries remoteEntry).mpr ⟨inRemote, parentLoaded⟩
    refine ⟨remoteEntry.path, List.mem_map.mpr ⟨_, inEntries, rfl⟩,
      (missing_iff_isNew wf own polled inEntries).mpr isNew,
      nearest ino dir _ found directory parent, ?_⟩
    obtain ⟨other, got, _, sameLoaded, _⟩ :=
      directory_prunedTable wf own found directory now
    rw [InodeTable.isChildrenLoaded, got, Option.any_some,
      InodeEntry.childrenLoaded, sameLoaded]
    exact loaded

/-- A directory after the round. -/
theorem directory_applyPollDiff {state : PollState}
    (wf : state.table.WellFormed)
    (own : DeletesOwn entries prefixes state.table) {dir : InodeEntry}
    (found : state.table.get ino = some dir)
    (directory : dir.kind = .directory) (now : Time) :
    ∃ new, (applyPollDiff entries prefixes now state).table.get ino =
        some new ∧ dir.SamePlace new ∧
      (new.childrenLoaded = true ↔ dir.childrenLoaded = true ∧
        ino ∉ droppedDirs entries prefixes now state.table) ∧
      ∀ child, child ∈ new.children ↔ child ∈ dir.children ∧
        child.ino ∉ pollDeletions entries prefixes state.table := by
  obtain ⟨other, got, place, sameLoaded, children⟩ :=
    directory_prunedTable wf own found directory now
  rw [get_applyPollDiff, got, Option.map_some]
  refine ⟨_, rfl, ?_⟩
  split <;> rename_i dropped
  · exact ⟨⟨place.inode, place.parent, place.name, place.fullPath, place.kind,
      place.links⟩, by simp [InodeEntry.childrenLoaded, dropped], children⟩
  · refine ⟨place, ?_, children⟩
    simp [InodeEntry.childrenLoaded, sameLoaded, dropped]

/-- A file or symlink that is not deleted, after the round. -/
theorem file_applyPollDiff {state : PollState} (wf : state.table.WellFormed)
    (own : DeletesOwn entries prefixes state.table) {entry : InodeEntry}
    (found : state.table.get ino = some entry)
    (notDirectory : entry.kind ≠ .directory)
    (kept : ino ∉ pollDeletions entries prefixes state.table) (now : Time) :
    ∃ new, (applyPollDiff entries prefixes now state).table.get ino =
        some new ∧ new.kind = entry.kind ∧ new.isDirty = entry.isDirty ∧
      new.hasOpenHandles = entry.hasOpenHandles ∧
      (entry.kind = .file → ∀ remoteEntry,
        Agrees (updatedEntry entries now entry) remoteEntry →
        Agrees new remoteEntry) := by
  have updated := get_updatedTable wf entries now found
  obtain ⟨inner, isInner, kind, dirty, opened, file⟩ : ∃ inner,
      (updatedTable entries now state.table).get ino = some inner ∧
      inner.kind = entry.kind ∧ inner.isDirty = entry.isDirty ∧
      inner.hasOpenHandles = entry.hasOpenHandles ∧
      (entry.kind = .file → inner = updatedEntry entries now entry) := by
    refine ⟨_, updated, ?_⟩
    split <;> rename_i file
    · unfold updatedEntry
      split <;> exact ⟨rfl, rfl, rfl, fun _ => rfl⟩
    · exact ⟨rfl, rfl, rfl, fun isFile => absurd isFile file⟩
  have got := (cleared_prunedTable wf own now).2.file ino inner kept
    isInner (by rw [kind]; exact notDirectory)
  rw [get_applyPollDiff, got, Option.map_some]
  refine ⟨_, rfl, ?_⟩
  have agrees : entry.kind = .file → ∀ remoteEntry,
      Agrees (updatedEntry entries now entry) remoteEntry →
      Agrees inner remoteEntry := by
    intro isFile remoteEntry agrees
    rw [file isFile]
    exact agrees
  split
  · refine ⟨kind, dirty, opened, ?_⟩
    intro isFile remoteEntry before
    cases agrees isFile remoteEntry before with
    | file isKind remoteKind hash size => exact .file isKind remoteKind hash size
    | directory isKind remoteKind => exact .directory isKind remoteKind
  · exact ⟨kind, dirty, opened, agrees⟩

/-- A directory after the round was there before. -/
theorem source_applyPollDiff {state : PollState}
    (refreshed : RefreshedTable state.table
      (updatedTable entries now state.table)) {new : InodeEntry}
    (got : (applyPollDiff entries prefixes now state).table.get ino = some new)
    (directory : new.kind = .directory) :
    ∃ dir, state.table.get ino = some dir ∧ dir.kind = .directory := by
  rw [get_applyPollDiff] at got
  obtain ⟨other, foundOther, rfl⟩ := Option.map_eq_some_iff.mp got
  obtain ⟨inner, foundInner, narrow⟩ :=
    (shrunk_removeAll now _ _).entry foundOther
  obtain ⟨dir, found, same⟩ := refreshed.backward foundInner
  refine ⟨dir, found, ?_⟩
  rw [← same.kind, ← narrow.kind]
  split at directory <;> exact directory

end

/-! ## The mirror -/

/-- Dirty and open files, and what was made here and never uploaded, may differ
from the remote. -/
def Excepted (localOnly : Ino → Prop) (ino : Ino) (entry : InodeEntry) :
    Prop :=
  localOnly ino ∨ entry.kind = .file ∧
    (entry.isDirty = true ∨ entry.hasOpenHandles = true)

/-- The directory has the children of the remote directory at its path. -/
structure Mirrors (remote : RemoteTree) (localOnly : Ino → Prop)
    (table : InodeTable) (dir : InodeEntry) : Prop where
  children : ∀ child ∈ dir.children, ∃ entry,
    table.get child.ino = some entry ∧
      (Excepted localOnly child.ino entry ∨
        ∃ remoteEntry ∈ remote.entries,
          remoteEntry.path = childPath dir.fullPath child.name ∧
            Agrees entry remoteEntry)
  entries : ∀ remoteEntry ∈ remote.entries,
    parentPath remoteEntry.path = dir.fullPath → ∃ child ∈ dir.children,
      remoteEntry.path = childPath dir.fullPath child.name ∧
      ∃ entry, table.get child.ino = some entry ∧
        (Excepted localOnly child.ino entry ∨ Agrees entry remoteEntry)

/-- Every loaded directory mirrors the remote. -/
def Mirrored (remote : RemoteTree) (localOnly : Ino → Prop)
    (table : InodeTable) : Prop :=
  ∀ ino dir, table.get ino = some dir → dir.kind = .directory →
    dir.childrenLoaded = true → Mirrors remote localOnly table dir

/-- In a loaded directory in which nothing is new every child that is no file
is a directory of the remote, or was made here. -/
def DirsCurrent (remote : RemoteTree) (localOnly : Ino → Prop)
    (table : InodeTable) : Prop :=
  ∀ ino dir, table.get ino = some dir → dir.kind = .directory →
    dir.childrenLoaded = true →
    (∀ remoteEntry ∈ remote.entries,
      parentPath remoteEntry.path = dir.fullPath → ¬ IsNew table remoteEntry) →
    ∀ child ∈ dir.children, ∀ entry, table.get child.ino = some entry →
      entry.kind ≠ .file → localOnly child.ino ∨
        entry.kind = .directory ∧ ∃ remoteEntry ∈ remote.entries,
          remoteEntry.path = childPath dir.fullPath child.name ∧
            remoteEntry.entryType = .directory

section

variable {remote : RemoteTree} {localOnly : Ino → Prop} {state : PollState}
  {entries : List TreeEntry} {prefixes : List Path} {now : Time}

/-- A file of a polled directory that is not deleted agrees with the remote, or
may differ from it. -/
theorem file_in_step (wf : state.table.WellFormed)
    (own : DeletesOwn entries prefixes state.table)
    (polled : Polled remote state.table entries prefixes) {ino : Ino}
    {entry : InodeEntry} (found : state.table.get ino = some entry)
    (file : entry.kind = .file)
    (kept : ino ∉ pollDeletions entries prefixes state.table)
    (loaded : parentPath entry.fullPath ∈ state.table.loadedDirPrefixes)
    (now : Time) :
    ∃ new, (applyPollDiff entries prefixes now state).table.get ino =
        some new ∧
      (Excepted localOnly ino new ∨ ∃ remoteEntry ∈ remote.entries,
        remoteEntry.path = entry.fullPath ∧ Agrees new remoteEntry) := by
  obtain ⟨new, got, kind, dirty, opened, agrees⟩ :=
    file_applyPollDiff wf own found (by rw [file]; decide) kept now
  refine ⟨new, got, ?_⟩
  by_cases isDirty : entry.isDirty = true
  · exact Or.inl (Or.inr ⟨kind.trans file, Or.inl (dirty.trans isDirty)⟩)
  right
  have clean : entry.isDirty = false := by simpa using isDirty
  have known := fun entry member => ((polled.entries entry).mp member).1
  cases listed : remoteMap entries entry.fullPath with
  | none =>
      refine absurd ((mem_pollDeletions wf found).mpr ⟨file, ?_⟩) kept
      simp [isDeleted, clean, listed, polled.prefixes _ loaded]
  | some remoteEntry =>
      obtain ⟨inEntries, isFile, same⟩ := (remoteMap_eq_some known).mp listed
      exact ⟨remoteEntry, known _ inEntries, same, agrees file remoteEntry
        (agrees_updatedEntry file clean isFile listed)⟩

/-- Under the condition the children that a round leaves are those of the
remote. -/
theorem children_in_step (wf : state.table.WellFormed)
    (own : DeletesOwn entries prefixes state.table)
    (polled : Polled remote state.table entries prefixes)
    (current : DirsCurrent remote localOnly state.table) {ino : Ino}
    {dir : InodeEntry} (found : state.table.get ino = some dir)
    (directory : dir.kind = .directory) (loaded : dir.childrenLoaded = true)
    (kept : ino ∉ droppedDirs entries prefixes now state.table)
    (child : DirChild) (listed : child ∈ dir.children)
    (spared : child.ino ∉ pollDeletions entries prefixes state.table) :
    ∃ new, (applyPollDiff entries prefixes now state).table.get child.ino =
        some new ∧
      (Excepted localOnly child.ino new ∨ ∃ remoteEntry ∈ remote.entries,
        remoteEntry.path = childPath dir.fullPath child.name ∧
          Agrees new remoteEntry) := by
  have noNew : ∀ remoteEntry ∈ remote.entries,
      parentPath remoteEntry.path = dir.fullPath →
      ¬ IsNew state.table remoteEntry := by
    intro remoteEntry inRemote parent isNew
    exact kept ((mem_droppedDirs_iff wf own polled found directory loaded).mpr
      ⟨remoteEntry, inRemote, parent, isNew⟩)
  obtain ⟨entry, isChild⟩ := wf.child found listed
  have valid := (wf.directory found listed).2.2
  by_cases file : entry.kind = .file
  · have parent : parentPath entry.fullPath ∈ state.table.loadedDirPrefixes :=
      mem_loadedDirPrefixes.mpr ⟨ino, dir, found, directory, loaded, by
        rw [isChild.fullPath, parentPath_childPath valid]⟩
    rw [← isChild.fullPath]
    exact file_in_step wf own polled isChild.found file spared parent now
  · have remains : ∃ new, (applyPollDiff entries prefixes now
        state).table.get child.ino = some new ∧ new.kind = entry.kind := by
      by_cases isDir : entry.kind = .directory
      · obtain ⟨new, got, place, _⟩ :=
          directory_applyPollDiff wf own isChild.found isDir now
        exact ⟨new, got, place.kind⟩
      · obtain ⟨new, got, kind, _⟩ :=
          file_applyPollDiff wf own isChild.found isDir spared now
        exact ⟨new, got, kind⟩
    obtain ⟨new, got, kind⟩ := remains
    refine ⟨new, got, ?_⟩
    rcases current ino dir found directory loaded noNew child listed entry
      isChild.found file with made | ⟨isDir, remoteEntry, inRemote, same,
        isDirectory⟩
    · exact Or.inl (Or.inl made)
    · exact Or.inr ⟨remoteEntry, inRemote, same,
        .directory (kind.trans isDir) isDirectory⟩

/-- What the remote has in a directory that stays loaded is among its
children. -/
theorem child_of_remote (wf : state.table.WellFormed)
    (own : DeletesOwn entries prefixes state.table)
    (polled : Polled remote state.table entries prefixes) {ino : Ino}
    {dir : InodeEntry} (found : state.table.get ino = some dir)
    (directory : dir.kind = .directory) (loaded : dir.childrenLoaded = true)
    (kept : ino ∉ droppedDirs entries prefixes now state.table)
    {remoteEntry : TreeEntry} (inRemote : remoteEntry ∈ remote.entries)
    (parent : parentPath remoteEntry.path = dir.fullPath) :
    ∃ child ∈ dir.children,
      child.ino ∉ pollDeletions entries prefixes state.table ∧
      remoteEntry.path = childPath dir.fullPath child.name := by
  have inEntries : remoteEntry ∈ entries :=
    (polled.entries remoteEntry).mpr ⟨inRemote, mem_loadedDirPrefixes.mpr
      ⟨ino, dir, found, directory, loaded, parent.symm⟩⟩
  have cleared := (cleared_prunedTable wf own now).2
  cases got : (prunedTable entries prefixes now state.table).getByPath
      remoteEntry.path with
  | none =>
      have isNew := (missing_iff_isNew wf own polled inEntries).mp got
      exact absurd ((mem_droppedDirs_iff wf own polled found directory
        loaded).mpr ⟨remoteEntry, inRemote, parent, isNew⟩) kept
  | some other =>
      obtain ⟨target, mapped, _⟩ := Option.bind_eq_some_iff.mp got
      obtain ⟨before, spared⟩ := (cleared.path _ _).mp mapped
      rw [(refreshed_updatedTable entries now state.table).path] at before
      obtain ⟨entry, foundEntry, live, fullPath⟩ := wf.path.mp before
      have notRoot : target ≠ rootInode := by
        rintro rfl
        obtain ⟨root, foundRoot, _, rootPath⟩ := wf.root
        obtain rfl := Option.some.inj (foundRoot.symm.trans foundEntry)
        exact remote.named remoteEntry inRemote (fullPath.symm.trans rootPath)
      obtain ⟨parentEntry, foundParent, isDir, valid, listed, ownPath⟩ :=
        wf.parent foundEntry notRoot live
      have samePath : parentEntry.fullPath = dir.fullPath := by
        rw [← parent, ← fullPath, ownPath, parentPath_childPath valid]
      have same := wf.unique foundParent found
        (InodeEntry.isLive_of_directory isDir)
        (InodeEntry.isLive_of_directory directory) samePath
      rw [same] at foundParent
      obtain rfl := Option.some.inj (found.symm.trans foundParent)
      exact ⟨⟨target, entry.name⟩, listed, spared,
        fullPath.symm.trans ownPath⟩

/-- When every deletion hits its own file, the table mirrors the remote after a
complete round exactly when its directories are current. -/
theorem mirrored_iff_of_complete {results : Listings}
    (wf : state.table.WellFormed)
    (answered : Answered remote state.table results)
    (complete : (pollRound results now state).1.complete = true)
    (own : DeletesOwn (allEntries results) (polledPrefixes results)
      state.table) :
    Mirrored remote localOnly (pollRound results now state).2.table ↔
      DirsCurrent remote localOnly state.table := by
  have polled := polled_of_complete answered complete
  constructor
  · intro mirrored ino dir found directory loaded noNew child listed entry
      foundEntry notFile
    obtain ⟨new, got, place, stays, children⟩ :=
      directory_applyPollDiff wf own found directory now
    have kept : ino ∉ droppedDirs (allEntries results)
        (polledPrefixes results) now state.table := by
      rw [mem_droppedDirs_iff wf own polled found directory loaded]
      rintro ⟨remoteEntry, inRemote, parent, isNew⟩
      exact noNew remoteEntry inRemote parent isNew
    have spared : child.ino ∉ pollDeletions (allEntries results)
        (polledPrefixes results) state.table := by
      intro deleted
      exact notFile ((mem_pollDeletions wf foundEntry).mp deleted).1
    have mirrors := mirrored ino new got (place.kind.trans directory)
      (stays.mpr ⟨loaded, kept⟩)
    obtain ⟨after, gotAfter, inStep⟩ :=
      mirrors.children child ((children child).mpr ⟨listed, spared⟩)
    have kind : after.kind = entry.kind := by
      by_cases isDir : entry.kind = .directory
      · obtain ⟨other, gotOther, otherPlace, _⟩ :=
          directory_applyPollDiff wf own foundEntry isDir now
        obtain rfl := Option.some.inj (gotOther.symm.trans gotAfter)
        exact otherPlace.kind
      · obtain ⟨other, gotOther, otherKind, _⟩ :=
          file_applyPollDiff wf own foundEntry isDir spared now
        obtain rfl := Option.some.inj (gotOther.symm.trans gotAfter)
        exact otherKind
    rcases inStep with (made | ⟨isFile, _⟩) | ⟨remoteEntry, inRemote, same,
      agrees⟩
    · exact Or.inl made
    · exact absurd (kind.symm.trans isFile) notFile
    · rw [place.fullPath] at same
      cases agrees with
      | file isFile _ _ _ => exact absurd (kind.symm.trans isFile) notFile
      | directory isDir remoteKind =>
          exact Or.inr ⟨kind.symm.trans isDir, remoteEntry, inRemote, same,
            remoteKind⟩
  · intro current ino new got directory loaded
    obtain ⟨dir, found, isDir⟩ := source_applyPollDiff
      (refreshed_updatedTable _ now state.table) got directory
    obtain ⟨again, gotAgain, place, stays, children⟩ :=
      directory_applyPollDiff wf own found isDir now
    obtain rfl := Option.some.inj (got.symm.trans gotAgain)
    obtain ⟨wasLoaded, kept⟩ := stays.mp loaded
    have inStep :=
      children_in_step wf own polled current found isDir wasLoaded kept
    constructor
    · intro child listed
      obtain ⟨earlier, spared⟩ := (children child).mp listed
      rw [place.fullPath]
      exact inStep child earlier spared
    · intro remoteEntry inRemote parent
      rw [place.fullPath] at parent ⊢
      obtain ⟨child, listed, spared, samePath⟩ := child_of_remote wf own polled
        found isDir wasLoaded kept inRemote parent
      obtain ⟨after, gotAfter, agrees⟩ := inStep child listed spared
      refine ⟨child, (children child).mpr ⟨listed, spared⟩, samePath, after,
        gotAfter, ?_⟩
      refine agrees.imp_right ?_
      rintro ⟨other, inOthers, otherPath, agrees⟩
      obtain rfl := remote.unique other inOthers remoteEntry inRemote
        (otherPath.trans samePath.symm)
      exact agrees

end

/-- The file `a` and the directory `d`, in the loaded root. -/
def fileAndDirectory : InodeTable :=
  (((InodeTable.new.insert rootInode ['a'] ['a'] .file 3 0 (some ['1']) 420 0 0
    0).2.insert rootInode ['d'] ['d'] .directory 0 0 none 493 0 0 0).2).modify
      rootInode fun entry => { entry with childrenLoadedAt := some 0 }

theorem wellFormed_fileAndDirectory : fileAndDirectory.WellFormed := by
  apply Reachable.wellFormed
  refine .modify rootInode ?_ fun _ => .of_fields rfl
  refine .insert_root (by decide) ?_ rfl .directory 0 0 none 493 0 0 0
  exact .insert_root (by decide) .new rfl .file 3 0 (some ['1']) 420 0 0 0

def fileAndDirectoryState : PollState :=
  { table := fileAndDirectory
    negativeCache := fun _ => none
    invalidated := [] }

/-- The remote has another `a`, and `d`. -/
def changedFile : RemoteTree :=
  { entries := [⟨['a'], .file, some 5, some ['2'], none, none⟩,
      ⟨['d'], .directory, none, none, none, none⟩]
    unique := by decide
    kind := by decide
    named := by decide
    closed := by decide }

/-- The remote has lost `d`. -/
def lostDirectory : RemoteTree :=
  { entries := [⟨['a'], .file, some 3, some ['1'], none, none⟩]
    unique := by decide
    kind := by decide
    named := by decide
    closed := by decide }

theorem answered_root {remote : RemoteTree}
    (atRoot : ∀ entry ∈ remote.entries, parentPath entry.path = []) :
    Answered remote fileAndDirectory [([], .ok remote.entries)] := by
  have loaded : fileAndDirectory.loadedDirPrefixes = [[]] := by decide
  constructor
  · intro dir isLoaded
    rw [loaded] at isLoaded
    obtain rfl := List.mem_singleton.mp isLoaded
    exact ⟨_, List.mem_singleton.mpr rfl⟩
  · intro dir answer inResults
    cases List.mem_singleton.mp inResults
    rw [loaded]
    exact List.mem_singleton.mpr rfl
  · intro dir entries inResults entry
    cases List.mem_singleton.mp inResults
    exact ⟨fun listed => ⟨listed, atRoot entry listed⟩, And.left⟩

theorem mirrored_changedFile :
    Mirrored changedFile (fun _ => False) (pollRound
      [([], .ok changedFile.entries)] 1 fileAndDirectoryState).2.table := by
  have deletesNone : pollDeletions
      (allEntries [([], .ok changedFile.entries)])
      (polledPrefixes [([], .ok changedFile.entries)]) fileAndDirectory =
      [] := by decide
  refine (mirrored_iff_of_complete wellFormed_fileAndDirectory
    (answered_root (by decide)) (by decide) ?_).mpr ?_
  · intro ino deleted
    rw [show pollDeletions _ _ fileAndDirectoryState.table = [] from
      deletesNone] at deleted
    cases deleted
  · have current : ∀ dir ∈ fileAndDirectory.values, ∀ child ∈ dir.children,
        ∀ entry ∈ fileAndDirectory.get child.ino, entry.kind ≠ .file →
        entry.kind = .directory ∧ ∃ remoteEntry ∈ changedFile.entries,
          remoteEntry.path = childPath dir.fullPath child.name ∧
            remoteEntry.entryType = .directory := by decide
    intro ino dir found _ _ _ child listed entry foundEntry notFile
    exact Or.inr (current dir (InodeTable.mem_values.mpr ⟨ino, found⟩) child
      listed entry foundEntry notFile)

/-- After a round that misses nothing the directory that the remote has lost is
still there. -/
theorem not_mirrored :
    ¬ ∀ (remote : RemoteTree) (localOnly : Ino → Prop) (state : PollState)
      (results : Listings) (now : Time), state.table.WellFormed →
      Answered remote state.table results →
      (pollRound results now state).1.complete = true →
      Mirrored remote localOnly (pollRound results now state).2.table := by
  intro claim
  have mirrored := claim lostDirectory (fun _ => False) fileAndDirectoryState
    [([], .ok lostDirectory.entries)] 1 wellFormed_fileAndDirectory
    (answered_root (by decide)) (by decide)
  have mirrors := mirrored rootInode _ rfl rfl rfl
  obtain ⟨entry, found, inStep⟩ :=
    mirrors.children ⟨3, ['d']⟩ (by decide)
  cases found
  rcases inStep with (made | ⟨isFile, _⟩) | ⟨remoteEntry, inRemote, same, _⟩
  · exact made
  · cases isFile
  · obtain rfl := List.mem_singleton.mp inRemote
    exact absurd same (by decide)

end HfMount.Poll
