import HfMount.Poll.Round
import HfMount.Lib.Transition

/-!
# Interval polling

The loop probes the revision of the remote and lists the loaded directories
when it has changed.  It records the new revision before the round, and does
not look at whether the round was complete.  Meanwhile the remote changes, and
directories are loaded by their own listings, which may be under way while the
loop works.
-/

namespace HfMount.Poll

open SlashPath Inode Transition

/-- The token of the remote after its `n`-th change is `n`. -/
abbrev Revision := Nat

inductive Phase where
  /-- The first probe is under way. -/
  | priming
  | primed (answer : Except RequestError Revision)
  | sleeping
  | probed (answer : Except RequestError Revision)
  /-- A round; `advanced` when it follows a new revision, and `since` is the
  revision of the remote at its start. -/
  | listing (advanced : Bool) (waiting : List Path) (results : Listings)
      (since : Revision)

/-- A directory that the running round still has to account for. -/
def Phase.Owes : Phase → Path → Prop
  | .listing true waiting results _, dir =>
      dir ∈ waiting ∨ ∃ error, (dir, .error error) ∈ results
  | _, _ => False

structure IntervalPoll where
  /-- The revision of the remote. -/
  version : Revision
  mirror : PollState
  /-- The latest revision at which a directory is known to have been listed or
  found deleted. -/
  checkedAt : Path → Option Revision
  /-- Directories with a listing under way, which has the given revision. -/
  loads : List (Path × Revision)
  lastRevision : Option Revision
  backoff : Backoff
  phase : Phase

inductive IntervalEvent where
  | remoteChange
  /-- The Hub answers the probe, with an error if there is one. -/
  | answerProbe (failure : Option RequestError)
  | handleProbe
  | answerListing (dir : Path)
      (answer : Except RequestError (List TreeEntry))
  | finishRound (now : Time)
  | answerLoad (dir : Path)
  /-- A directory's own load ends with this table. -/
  | finishLoad (dir : Path) (revision : Revision) (table : InodeTable)
  /-- Any other local change; it marks no directory as loaded. -/
  | localChange (table : InodeTable)

namespace IntervalPoll

/-- A mount that was just set up. -/
def start (interval : Nat) : IntervalPoll :=
  { version := 0
    mirror :=
      { table := .new
        negativeCache := fun _ => none
        invalidated := [] }
    checkedAt := fun _ => none
    loads := []
    lastRevision := none
    backoff := .new interval
    phase := .priming }

def loaded (poll : IntervalPoll) : List Path :=
  poll.mirror.table.loadedDirPrefixes

/-- Record that a directory was listed, or found deleted. -/
def check (poll : IntervalPoll) (dir : Path) (revision : Revision) :
    IntervalPoll :=
  { poll with
    checkedAt := Function.update poll.checkedAt dir
      (some (max ((poll.checkedAt dir).getD 0) revision)) }

def withTable (poll : IntervalPoll) (table : InodeTable) : IntervalPoll :=
  { poll with mirror := { poll.mirror with table } }

/-- What the loop does with the answer of a probe. -/
def handleProbe (poll : IntervalPoll)
    (answer : Except RequestError Revision) : IntervalPoll :=
  match answer with
  | .ok revision =>
      let recovered := { poll with
        backoff :=
          if poll.backoff.isBackingOff then poll.backoff.reset
          else poll.backoff }
      if recovered.lastRevision = some revision then
        { recovered with phase := .sleeping }
      else
        { recovered with
          lastRevision := some revision
          phase := .listing true recovered.loaded [] recovered.version }
  | .error error =>
      if shouldBackOff error then
        { poll with
          backoff := poll.backoff.next.2
          phase := .sleeping }
      else { poll with phase := .listing false poll.loaded [] poll.version }

/-- The end of a round: only the backoff status of its outcome is used. -/
def finishRound (poll : IntervalPoll) (results : Listings) (since : Revision)
    (now : Time) : IntervalPoll :=
  let ended := pollRound results now poll.mirror
  let checked := (polledPrefixes results).foldl
    (fun (current : IntervalPoll) dir => current.check dir since) poll
  { checked with
    mirror := ended.2
    backoff :=
      if ended.1.sawBackoffStatus then poll.backoff.next.2
      else if poll.backoff.isBackingOff then poll.backoff.reset
      else poll.backoff
    phase := .sleeping }

def step (poll : IntervalPoll) : IntervalEvent → Option IntervalPoll
  | .remoteChange => some { poll with version := poll.version + 1 }
  | .answerProbe failure =>
      let answer : Except RequestError Revision :=
        match failure with
        | none => .ok poll.version
        | some error => .error error
      match poll.phase with
      | .priming => some { poll with phase := .primed answer }
      | .sleeping => some { poll with phase := .probed answer }
      | _ => none
  | .handleProbe =>
      match poll.phase with
      | .primed answer => some
          { poll with
            lastRevision := answer.toOption
            phase := .sleeping }
      | .probed answer => some (poll.handleProbe answer)
      | _ => none
  | .answerListing dir answer =>
      match poll.phase with
      | .listing advanced waiting results since =>
          if dir ∈ waiting then
            let answered := { poll with
              phase := .listing advanced (waiting.erase dir)
                (results ++ [(dir, answer)]) since }
            some (match answer with
              | .ok _ => answered.check dir poll.version
              | .error _ => answered)
          else none
      | _ => none
  | .finishRound now =>
      match poll.phase with
      | .listing _ [] results since =>
          some (poll.finishRound results since now)
      | _ => none
  | .answerLoad dir =>
      some { poll with loads := (dir, poll.version) :: poll.loads }
  | .finishLoad dir revision table =>
      if (dir, revision) ∈ poll.loads then
        let taken := { poll with loads := poll.loads.erase (dir, revision) }
        if dir ∈ poll.loaded then some taken
        else if table.loadedDirPrefixes ⊆ dir :: poll.loaded then
          some ((taken.withTable table).check dir revision)
        else none
      else none
  | .localChange table =>
      if table.loadedDirPrefixes ⊆ poll.loaded then
        some (poll.withTable table)
      else none

/-- The directory was listed or found deleted at or after the revision. -/
def CheckedSince (poll : IntervalPoll) (dir : Path) (revision : Revision) :
    Prop :=
  (poll.checkedAt dir).any (revision ≤ ·) = true

instance (poll : IntervalPoll) (dir : Path) (revision : Revision) :
    Decidable (poll.CheckedSince dir revision) :=
  inferInstanceAs (Decidable (_ = true))

/-- The steps that keep the recorded revision true: the first probe comes
before any older listing was loaded, a round after a new revision is complete,
and no load brings a listing from before the recorded revision. -/
def isSound (poll : IntervalPoll) : IntervalEvent → Bool
  | .handleProbe =>
      match poll.phase with
      | .primed (.ok revision) =>
          poll.loaded.all fun dir => decide (poll.CheckedSince dir revision)
      | _ => true
  | .finishRound _ =>
      match poll.phase with
      | .listing true _ results _ => (roundOutcome results).complete
      | _ => true
  | .finishLoad dir revision _ =>
      decide (dir ∈ poll.loaded) || poll.lastRevision.all (· ≤ revision)
  | _ => true

def Sound (poll : IntervalPoll) (event : IntervalEvent) : Prop :=
  poll.isSound event = true

instance (poll : IntervalPoll) (event : IntervalEvent) :
    Decidable (poll.Sound event) :=
  inferInstanceAs (Decidable (_ = true))

/-! ## The recorded revision stays true -/

/-- The state up to the choices that the loop still has to make. -/
structure Recorded (poll : IntervalPoll) : Prop where
  past : ∀ {revision}, poll.lastRevision = some revision →
    revision ≤ poll.version
  answer : ∀ {revision}, poll.phase = .primed (.ok revision) ∨
    poll.phase = .probed (.ok revision) → revision ≤ poll.version
  since : ∀ {advanced waiting results since},
    poll.phase = .listing advanced waiting results since →
    since ≤ poll.version ∧
      ∀ {revision}, poll.lastRevision = some revision → revision ≤ since
  checked : ∀ {revision dir}, poll.lastRevision = some revision →
    dir ∈ poll.loaded →
    poll.CheckedSince dir revision ∨ poll.phase.Owes dir

theorem checkedSince_iff {poll : IntervalPoll} {dir : Path}
    {revision : Revision} : poll.CheckedSince dir revision ↔
      ∃ latest, poll.checkedAt dir = some latest ∧ revision ≤ latest := by
  unfold CheckedSince
  cases poll.checkedAt dir with
  | none => simp
  | some latest => simp

theorem checkedSince_check (poll : IntervalPoll) (dir : Path)
    {revision earlier : Revision} (order : earlier ≤ revision) :
    (poll.check dir revision).CheckedSince dir earlier := by
  rw [checkedSince_iff]
  refine ⟨_, Function.update_self _ _ _, ?_⟩
  exact Nat.le_trans order (Nat.le_max_right _ _)

/-- Checking a directory again forgets nothing. -/
theorem CheckedSince.check {poll : IntervalPoll} {dir : Path}
    {revision : Revision} (checked : poll.CheckedSince dir revision)
    (other : Path) (later : Revision) :
    (poll.check other later).CheckedSince dir revision := by
  rw [checkedSince_iff] at checked ⊢
  obtain ⟨latest, found, order⟩ := checked
  by_cases same : dir = other
  · subst same
    refine ⟨_, Function.update_self _ _ _, ?_⟩
    rw [found, Option.getD_some]
    exact Nat.le_trans order (Nat.le_max_left _ _)
  · exact ⟨latest, (Function.update_of_ne same _ _).trans found, order⟩

theorem recorded_of_sleeping {poll : IntervalPoll}
    (sleeping : poll.phase = .sleeping)
    (past : ∀ {revision}, poll.lastRevision = some revision →
      revision ≤ poll.version)
    (checked : ∀ {revision dir}, poll.lastRevision = some revision →
      dir ∈ poll.loaded → poll.CheckedSince dir revision) : poll.Recorded := by
  refine ⟨past, ?_, ?_, fun last loaded => Or.inl (checked last loaded)⟩
  · rw [sleeping]
    rintro revision (answered | answered) <;> cases answered
  · rw [sleeping]
    intro advanced waiting results since listing
    cases listing

theorem recorded_of_listing {poll : IntervalPoll} {advanced : Bool}
    {waiting : List Path} {results : Listings} {since : Revision}
    (listing : poll.phase = .listing advanced waiting results since)
    (started : since ≤ poll.version)
    (past : ∀ {revision}, poll.lastRevision = some revision →
      revision ≤ since)
    (checked : ∀ {revision dir}, poll.lastRevision = some revision →
      dir ∈ poll.loaded →
      poll.CheckedSince dir revision ∨ poll.phase.Owes dir) :
    poll.Recorded := by
  refine ⟨fun last => Nat.le_trans (past last) started, ?_, ?_, checked⟩
  · rw [listing]
    rintro revision (answered | answered) <;> cases answered
  · rw [listing]
    intro advanced waiting results since same
    cases same
    exact ⟨started, past⟩

/-- Outside a round nothing is owed. -/
theorem Recorded.idle {poll : IntervalPoll} (recorded : poll.Recorded)
    (idle : ∀ dir, ¬ poll.phase.Owes dir) {revision : Revision} {dir : Path}
    (last : poll.lastRevision = some revision) (loaded : dir ∈ poll.loaded) :
    poll.CheckedSince dir revision :=
  (recorded.checked last loaded).resolve_right (idle dir)

theorem Recorded.handleProbe {poll : IntervalPoll} (recorded : poll.Recorded)
    {answer : Except RequestError Revision}
    (probed : poll.phase = .probed answer) :
    (poll.handleProbe answer).Recorded := by
  have idle : ∀ dir, ¬ poll.phase.Owes dir := by
    rw [probed]
    exact fun dir owed => owed
  unfold IntervalPoll.handleProbe
  cases answer with
  | ok revision =>
      have seen := recorded.answer (Or.inr probed)
      dsimp only
      split
      · exact recorded_of_sleeping rfl (fun last => recorded.past last)
          fun last loaded => recorded.idle idle last loaded
      · refine recorded_of_listing rfl (Nat.le_refl _) ?_ ?_
        · intro other last
          cases last
          exact seen
        · exact fun last loaded => Or.inr (Or.inl loaded)
  | error error =>
      dsimp only
      split
      · exact recorded_of_sleeping rfl (fun last => recorded.past last)
          fun last loaded => recorded.idle idle last loaded
      · exact recorded_of_listing rfl (Nat.le_refl _)
          (fun last => recorded.past last)
          fun last loaded => Or.inl (recorded.idle idle last loaded)

theorem Recorded.answerListing {poll : IntervalPoll}
    (recorded : poll.Recorded) {advanced : Bool} {waiting : List Path}
    {results : Listings} {since : Revision}
    (listing : poll.phase = .listing advanced waiting results since)
    (dir : Path) (answer : Except RequestError (List TreeEntry)) :
    (match answer with
      | .ok _ => { poll with
          phase := .listing advanced (waiting.erase dir)
            (results ++ [(dir, answer)]) since }.check dir poll.version
      | .error _ => { poll with
          phase := .listing advanced (waiting.erase dir)
            (results ++ [(dir, answer)]) since }).Recorded := by
  obtain ⟨started, past⟩ := recorded.since listing
  have waits : ∀ {other}, other ∈ waiting → other ≠ dir →
      other ∈ waiting.erase dir :=
    fun member different => (List.mem_erase_of_ne different).mpr member
  have answered : ∀ {error other}, (other, .error error) ∈ results →
      (other, .error error) ∈ results ++ [(dir, answer)] :=
    fun member => List.mem_append_left _ member
  cases answer with
  | ok entries =>
      refine recorded_of_listing rfl started past ?_
      intro revision other last loaded
      rcases recorded.checked last loaded with checked | owed
      · exact Or.inl (checked.check dir poll.version)
      · rw [listing] at owed
        cases advanced with
        | false => cases owed
        | true =>
            by_cases same : other = dir
            · subst same
              exact Or.inl (checkedSince_check poll _
                (Nat.le_trans (past last) started))
            · right
              rcases owed with waits' | ⟨error, failed⟩
              · exact Or.inl (waits waits' same)
              · exact Or.inr ⟨error, answered failed⟩
  | error error =>
      refine recorded_of_listing rfl started past ?_
      intro revision other last loaded
      rcases recorded.checked last loaded with checked | owed
      · exact Or.inl checked
      · rw [listing] at owed
        right
        cases advanced with
        | false => cases owed
        | true =>
            by_cases same : other = dir
            · exact Or.inr ⟨error, by simp [same]⟩
            · rcases owed with waits' | ⟨error, failed⟩
              · exact Or.inl (waits waits' same)
              · exact Or.inr ⟨error, answered failed⟩

theorem foldl_check (dirs : List Path) (since : Revision)
    (poll : IntervalPoll) :
    (dirs.foldl (fun (current : IntervalPoll) dir => current.check dir since)
        poll).lastRevision = poll.lastRevision ∧
      (dirs.foldl (fun (current : IntervalPoll) dir =>
        current.check dir since) poll).version = poll.version ∧
      ∀ dir revision, poll.CheckedSince dir revision ∨
          (dir ∈ dirs ∧ revision ≤ since) →
        (dirs.foldl (fun (current : IntervalPoll) dir =>
          current.check dir since) poll).CheckedSince dir revision := by
  induction dirs generalizing poll with
  | nil =>
      refine ⟨rfl, rfl, ?_⟩
      rintro dir revision (checked | ⟨member, _⟩)
      · exact checked
      · cases member
  | cons first dirs ih =>
      obtain ⟨last, version, checked⟩ := ih (poll.check first since)
      refine ⟨last, version, ?_⟩
      rintro dir revision (before | ⟨member, order⟩)
      · exact checked dir revision (Or.inl (before.check first since))
      · rcases List.mem_cons.mp member with rfl | later
        · exact checked dir revision
            (Or.inl (checkedSince_check poll dir order))
        · exact checked dir revision (Or.inr ⟨later, order⟩)

theorem Recorded.finishRound {poll : IntervalPoll} (recorded : poll.Recorded)
    {advanced : Bool} {results : Listings} {since : Revision}
    (listing : poll.phase = .listing advanced [] results since)
    (complete : advanced = true → (roundOutcome results).complete = true)
    (now : Time) : (poll.finishRound results since now).Recorded := by
  obtain ⟨started, past⟩ := recorded.since listing
  obtain ⟨last, version, checked⟩ :=
    foldl_check (polledPrefixes results) since poll
  refine recorded_of_sleeping rfl ?_ ?_
  · intro revision lastNow
    rw [show (poll.finishRound results since now).version = poll.version from
      version]
    exact recorded.past (last.symm.trans lastNow)
  · intro revision dir lastNow loadedNow
    have lastThen := last.symm.trans lastNow
    have loadedThen : dir ∈ poll.loaded :=
      loaded_applyPollDiff (allEntries results) (polledPrefixes results) now
        poll.mirror loadedNow
    apply checked dir revision
    rcases recorded.checked lastThen loadedThen with before | owed
    · exact Or.inl before
    · right
      rw [listing] at owed
      cases advanced with
      | false => cases owed
      | true =>
          rcases owed with waits | ⟨error, failed⟩
          · cases waits
          · exact ⟨mem_polledPrefixes_of_complete (complete rfl) failed,
              past lastThen⟩

/-- A local change that marks no directory as loaded. -/
theorem Recorded.withTable {poll : IntervalPoll} (recorded : poll.Recorded)
    {table : InodeTable} (loads : ∀ {revision dir},
      poll.lastRevision = some revision → dir ∈ table.loadedDirPrefixes →
      poll.CheckedSince dir revision ∨ dir ∈ poll.loaded) :
    (poll.withTable table).Recorded := by
  refine ⟨fun last => recorded.past last, fun answered =>
    recorded.answer answered, fun listing => recorded.since listing, ?_⟩
  intro revision dir last loaded
  rcases loads last loaded with checked | before
  · exact Or.inl checked
  · exact recorded.checked last before

theorem Recorded.check {poll : IntervalPoll} (recorded : poll.Recorded)
    (dir : Path) (revision : Revision) :
    (poll.check dir revision).Recorded := by
  refine ⟨fun last => recorded.past last, fun answered =>
    recorded.answer answered, fun listing => recorded.since listing, ?_⟩
  intro other target last loaded
  rcases recorded.checked last loaded with checked | owed
  · exact Or.inl (checked.check dir revision)
  · exact Or.inr owed

end IntervalPoll

end HfMount.Poll
