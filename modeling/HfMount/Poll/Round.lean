import HfMount.Poll.DirtyFiles
import Mathlib.Data.List.Sort

/-!
# One poll round

A round lists every loaded directory and applies the difference.  A directory
whose listing failed counts as listed when its parent was listed and does not
contain it any more; the round is complete when no other listing failed.
-/

namespace HfMount.Poll

open SlashPath Inode

/-- Why a request failed: with a status that asks for fewer requests (an
expired token or a transient failure), or in another way. -/
inductive RequestError where
  | backOff
  | other
  deriving DecidableEq

def shouldBackOff : RequestError → Bool
  | .backOff => true
  | .other => false

/-! ## Backoff -/

/-- Exponential backoff: the delay is `base * 2 ^ exp`. -/
structure Backoff where
  base : Nat
  exp : Nat
  deriving DecidableEq

namespace Backoff

def maxExp : Nat := 6

def new (base : Nat) : Backoff :=
  { base
    exp := 0 }

def delay (backoff : Backoff) : Nat := backoff.base * 2 ^ backoff.exp

/-- The delay to sleep now, and the escalation for the attempt after it. -/
def next (backoff : Backoff) : Nat × Backoff :=
  (backoff.delay, { backoff with exp := min (backoff.exp + 1) maxExp })

def isBackingOff (backoff : Backoff) : Bool := 0 < backoff.exp

def reset (backoff : Backoff) : Backoff := { backoff with exp := 0 }

end Backoff

/-! ## The listings of a round -/

/-- The answers of the listings, in the order of their arrival. -/
abbrev Listings := List (Path × Except RequestError (List TreeEntry))

def allEntries (results : Listings) : List TreeEntry :=
  results.flatMap fun result => result.2.toOption.getD []

def listedPrefixes (results : Listings) : List Path :=
  (results.filter fun result => result.2.toOption.isSome).map (·.1)

def failedPrefixes (results : Listings) : List Path :=
  (results.filter fun result => result.2.toOption.isNone).map (·.1)

def sawBackoffStatus (results : Listings) : Bool :=
  results.any fun result =>
    match result.2 with
    | .ok _ => false
    | .error error => shouldBackOff error

/-- A failed directory is deleted when its parent was polled and the entries
do not contain it. -/
def confirmDeleted (entries : List TreeEntry) (polled : List Path)
    (failed : Path) : List Path :=
  if parentPath failed ∈ polled &&
      !entries.any fun entry =>
        entry.entryType = .directory && entry.path = failed then
    polled ++ [failed]
  else polled

/-- The directories that were listed or are confirmed to be deleted; parents
are confirmed before what is below them. -/
def polledPrefixes (results : Listings) : List Path :=
  ((failedPrefixes results).insertionSort fun left right =>
      left.count '/' ≤ right.count '/').foldl
    (confirmDeleted (allEntries results)) (listedPrefixes results)

structure PollRound where
  sawBackoffStatus : Bool
  complete : Bool
  deriving DecidableEq

def roundOutcome (results : Listings) : PollRound :=
  { sawBackoffStatus := sawBackoffStatus results
    complete := (failedPrefixes results).all fun failed =>
      failed ∈ polledPrefixes results }

/-- The end of a round, when all listings have been answered. -/
def pollRound (results : Listings) (now : Time) (state : PollState) :
    PollRound × PollState :=
  (roundOutcome results,
    applyPollDiff (allEntries results) (polledPrefixes results) now state)

theorem mem_listedPrefixes {results : Listings} {dir : Path} :
    dir ∈ listedPrefixes results ↔
      ∃ entries, (dir, .ok entries) ∈ results := by
  unfold listedPrefixes
  constructor
  · intro member
    obtain ⟨⟨_, answer⟩, listed, rfl⟩ := List.mem_map.mp member
    obtain ⟨inResults, ok⟩ := List.mem_filter.mp listed
    cases answer with
    | error error => cases ok
    | ok entries => exact ⟨entries, inResults⟩
  · rintro ⟨entries, inResults⟩
    exact List.mem_map.mpr ⟨_, List.mem_filter.mpr ⟨inResults, rfl⟩, rfl⟩

theorem mem_failedPrefixes {results : Listings} {dir : Path} :
    dir ∈ failedPrefixes results ↔ ∃ error, (dir, .error error) ∈ results := by
  unfold failedPrefixes
  constructor
  · intro member
    obtain ⟨⟨_, answer⟩, listed, rfl⟩ := List.mem_map.mp member
    obtain ⟨inResults, failed⟩ := List.mem_filter.mp listed
    cases answer with
    | error error => exact ⟨error, inResults⟩
    | ok entries => cases failed
  · rintro ⟨error, inResults⟩
    exact List.mem_map.mpr ⟨_, List.mem_filter.mpr ⟨inResults, rfl⟩, rfl⟩

/-- Every directory of a complete round was listed or confirmed deleted. -/
theorem mem_polledPrefixes_of_complete {results : Listings}
    (complete : (roundOutcome results).complete = true) {dir : Path}
    {answer : Except RequestError (List TreeEntry)}
    (answered : (dir, answer) ∈ results) : dir ∈ polledPrefixes results := by
  have kept : ∀ (failed : List Path) (polled : List Path), dir ∈ polled →
      dir ∈ failed.foldl (confirmDeleted (allEntries results)) polled := by
    intro failed
    induction failed with
    | nil => exact fun polled member => member
    | cons first failed ih =>
        intro polled member
        apply ih
        unfold confirmDeleted
        split
        · exact List.mem_append_left _ member
        · exact member
  cases answer with
  | ok entries => exact kept _ _ (mem_listedPrefixes.mpr ⟨entries, answered⟩)
  | error error =>
      have failed := mem_failedPrefixes.mpr ⟨error, answered⟩
      simpa using List.all_eq_true.mp complete dir failed

/-! ## Loaded directories -/

/-- Paths of the loaded directories. -/
theorem mem_loadedDirPrefixes {table : InodeTable} {dir : Path} :
    dir ∈ table.loadedDirPrefixes ↔ ∃ ino entry,
      table.get ino = some entry ∧ entry.kind = .directory ∧
        entry.childrenLoaded = true ∧ entry.fullPath = dir := by
  unfold InodeTable.loadedDirPrefixes
  constructor
  · intro member
    obtain ⟨entry, listed, rfl⟩ := List.mem_map.mp member
    obtain ⟨inValues, loaded⟩ := List.mem_filter.mp listed
    obtain ⟨ino, found⟩ := InodeTable.mem_values.mp inValues
    simp only [Bool.and_eq_true, decide_eq_true_eq] at loaded
    exact ⟨ino, entry, found, loaded.1, loaded.2, rfl⟩
  · rintro ⟨ino, entry, found, directory, loaded, rfl⟩
    refine List.mem_map.mpr ⟨entry, List.mem_filter.mpr
      ⟨InodeTable.mem_values.mpr ⟨ino, found⟩, ?_⟩, rfl⟩
    simp [directory, loaded]

theorem RefreshedTable.loaded {before after : InodeTable}
    (refreshed : RefreshedTable before after) :
    after.loadedDirPrefixes ⊆ before.loadedDirPrefixes := by
  intro dir member
  obtain ⟨ino, other, got, directory, loaded, fullPath⟩ :=
    mem_loadedDirPrefixes.mp member
  obtain ⟨entry, found, same⟩ := refreshed.backward got
  exact mem_loadedDirPrefixes.mpr ⟨ino, entry, found,
    same.kind.symm.trans directory, same.loaded loaded,
    same.fullPath.symm.trans fullPath⟩

theorem Shrunk.loaded {before after : InodeTable}
    (shrunk : Shrunk before after) :
    after.loadedDirPrefixes ⊆ before.loadedDirPrefixes := by
  intro dir member
  obtain ⟨ino, new, got, directory, loaded, fullPath⟩ :=
    mem_loadedDirPrefixes.mp member
  obtain ⟨old, found, narrow⟩ := shrunk.entry got
  refine mem_loadedDirPrefixes.mpr ⟨ino, old, found,
    narrow.kind.symm.trans directory, ?_, narrow.fullPath.symm.trans fullPath⟩
  unfold InodeEntry.childrenLoaded at loaded ⊢
  rwa [← narrow.childrenLoadedAt]

/-- Applying a listing marks no directory as loaded. -/
theorem loaded_applyPollDiff (remoteEntries : List TreeEntry)
    (polledPrefixes : List Path) (now : Time) (state : PollState) :
    (applyPollDiff remoteEntries polledPrefixes now
        state).table.loadedDirPrefixes ⊆ state.table.loadedDirPrefixes := by
  obtain ⟨updated, before, after⟩ :=
    applyPollDiff_table remoteEntries polledPrefixes now state
  intro dir loaded
  exact before.loaded ((shrunk_removeAll now _ updated).loaded
    (after.loaded loaded))

end HfMount.Poll
