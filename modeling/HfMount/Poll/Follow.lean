import HfMount.Poll.Round
import HfMount.Lib.Transition

/-!
# Live-follow

The loop subscribes to the feed of changes from a resume point: a cursor, or
the last revision, or none.  Events that do not parse are dropped.  A cursor
that the feed reports becomes the next resume point, so everything up to it has
to be accounted for: applied, listed by a complete round, or lost in a payload
that did not parse.
-/

namespace HfMount.Poll

open SlashPath Inode Transition

/-! ## Events of the feed -/

/-- The position after the `n`-th change of the remote is `n`; cursors and
revisions are such positions. -/
abbrev Position := Nat

inductive FollowEvent where
  | ready (cursor : Option Position)
  | changes (cursor : Position) (changes : List FollowChange)
  | reset
  | reconnect (cursor : Option Position)

/-- An event as it arrives; a payload that is missing did not parse. -/
inductive RawEvent where
  | ready (payload : Option (Option Position))
  | changes (payload : Option (Position × List FollowChange))
  | reset
  | reconnect (payload : Option (Option Position))
  | unknown

/-- Unknown names and payloads that do not parse yield nothing. -/
def parseFollowEvent : RawEvent → Option FollowEvent
  | .ready payload => payload.map .ready
  | .changes payload => payload.map fun data => .changes data.1 data.2
  | .reset => some .reset
  | .reconnect payload => payload.map .reconnect
  | .unknown => none

/-- The path relative to a directory that it lives strictly under. -/
def strictDescendantRel (path dir : Path) : Option Path :=
  if (dir ++ ['/']).isPrefixOf path && dir.length + 1 < path.length then
    some (path.drop (dir.length + 1))
  else none

/-- A change below the mounted directory, with its path relative to it. -/
def rebaseChange (mountDir : Path) (change : FollowChange) :
    Option FollowChange :=
  if mountDir.isEmpty then some change
  else (strictDescendantRel change.path mountDir).map fun path =>
    { change with path }

/-- The event that the loop sees: changes outside the mount are left out. -/
def nextEvent (mountDir : Path) (raw : RawEvent) : Option FollowEvent :=
  (parseFollowEvent raw).map fun event =>
    match event with
    | .changes cursor changes =>
        .changes cursor (changes.filterMap (rebaseChange mountDir))
    | other => other

/-- The cursor that an event reports. -/
def FollowEvent.cursor : FollowEvent → Option Position
  | .ready cursor => cursor
  | .changes cursor _ => some cursor
  | .reset => none
  | .reconnect cursor => cursor

/-! ## The loop -/

/-- Where the next subscription resumes from. -/
inductive Resume where
  | cursor (position : Position)
  | since
  | live
  deriving DecidableEq

inductive FollowPhase where
  | starting
  /-- A round after the probed revision; `since` is the position at its
  start. -/
  | reconciling (revision : Position) (waiting : List Path)
      (results : Listings) (since : Position)
  | connecting
  /-- A session: the changes up to `sent` were sent to it, and it is anchored
  when it was subscribed with a resume point. -/
  | streaming (sent : Position) (anchored gotReady : Bool)
  | stopped

structure FollowLoop where
  /-- The changes of the remote so far. -/
  log : List FollowChange
  mountDir : Path
  mirror : PollState
  lastRevision : Option Position
  resume : Resume
  skipProbe : Bool
  backoff : Backoff
  sessionsWithoutReady : Nat
  phase : FollowPhase
  /-- Positions of the changes that were passed to `applyFollowChanges`. -/
  passed : Position → Bool
  /-- Positions of the changes in payloads that did not parse. -/
  garbled : Position → Bool
  /-- Changes up to here came before a complete round of this loop, or before
  the primed revision. -/
  reconciled : Position

inductive ConnectAnswer where
  | subscribed
  /-- The feed is not served for this source. -/
  | notServed
  /-- Status 400. -/
  | refused
  | failed (retryAfter : Option Nat)
  deriving DecidableEq

inductive FollowLoopEvent where
  | remoteChange (change : FollowChange)
  | localChange (table : InodeTable)
  /-- The top of the loop when no probe is needed. -/
  | skipProbe
  | probe (answer : Except RequestError Position)
  | answerListing (dir : Path)
      (answer : Except RequestError (List TreeEntry))
  | finishRound (now : Time)
  | connect (answer : ConnectAnswer)
  /-- The next event of the stream, which sends the changes up to `upTo`. -/
  | receive (raw : RawEvent) (upTo : Position) (now : Time)
  /-- The stream ends or fails. -/
  | endStream

namespace FollowLoop

def retryBase : Nat := 10

def maxSessionsWithoutReady : Nat := 3

/-- The caller may have primed the revision right before. -/
def start (log : List FollowChange) (mountDir : Path) (table : InodeTable)
    (primed : Bool) : FollowLoop :=
  { log
    mountDir
    mirror :=
      { table
        negativeCache := fun _ => none
        invalidated := [] }
    lastRevision := if primed then some log.length else none
    resume := .since
    skipProbe := primed
    backoff := .new retryBase
    sessionsWithoutReady := 0
    phase := .starting
    passed := fun _ => false
    garbled := fun _ => false
    reconciled := if primed then log.length else 0 }

/-- The resume point of a subscription. -/
def resumePoint (loop : FollowLoop) : Option Position :=
  match loop.resume with
  | .cursor position => some position
  | .since => loop.lastRevision
  | .live => none

/-- What the loop does when a session has ended. -/
def endSession (loop : FollowLoop) (healthy : Bool) : FollowLoop :=
  let resumed := { loop with
    resume := if loop.resume = Resume.live then .since else loop.resume }
  if healthy then { resumed with phase := .starting }
  else
    let counted := { resumed with
      sessionsWithoutReady := resumed.sessionsWithoutReady + 1 }
    if maxSessionsWithoutReady ≤ counted.sessionsWithoutReady then
      { counted with phase := .stopped }
    else
      { counted with
        backoff := counted.backoff.next.2
        phase := .starting }

/-- What the loop does with an event of the session. -/
def handleEvent (loop : FollowLoop) (sent : Position)
    (anchored gotReady : Bool) (now : Time) : FollowEvent → FollowLoop
  | .ready cursor =>
      { loop with
        resume := (cursor.map Resume.cursor).getD loop.resume
        backoff := loop.backoff.reset
        sessionsWithoutReady := 0
        phase := .streaming sent anchored true }
  | .changes cursor changes =>
      { loop with
        mirror := applyFollowChanges changes now loop.mirror
        resume := .cursor cursor
        phase := .streaming sent anchored gotReady }
  | .reset => { loop with resume := .since }.endSession true
  | .reconnect cursor =>
      { loop with resume := (cursor.map Resume.cursor).getD loop.resume }.endSession
        true

/-- The changes that the server sends between two positions. -/
def slice (log : List FollowChange) (sent upTo : Position) :
    List FollowChange :=
  (log.take upTo).drop sent

/-- The contract of the server: a cursor covers only changes that were sent to
the session, and a batch of changes continues where the last one ended. -/
def sends (loop : FollowLoop) (sent upTo : Position) : RawEvent → Bool
  | .ready payload | .reconnect payload =>
      upTo = sent && payload.join.all (· ≤ sent)
  | .changes payload =>
      sent ≤ upTo && upTo ≤ loop.log.length &&
        payload.all fun data => data = (upTo, slice loop.log sent upTo)
  | .reset | .unknown => upTo = sent

/-- Positions of the changes of a batch that concern the mount. -/
def concerning (mountDir : Path) (sent : Position)
    (batch : List FollowChange) : List Position :=
  ((batch.zipIdx (sent + 1)).filter fun change =>
    (rebaseChange mountDir change.1).isSome).map (·.2)

/-- The next event arrives; one that does not parse is dropped. -/
def receive (loop : FollowLoop) (sent : Position) (anchored gotReady : Bool)
    (raw : RawEvent) (upTo : Position) (now : Time) : FollowLoop :=
  let batch := concerning loop.mountDir sent (slice loop.log sent upTo)
  match nextEvent loop.mountDir raw with
  | none =>
      { loop with
        garbled := fun position =>
          loop.garbled position || batch.contains position
        phase := .streaming upTo anchored gotReady }
  | some event =>
      { loop with
        passed := fun position =>
          loop.passed position || batch.contains position }.handleEvent upTo
        anchored gotReady now event

/-- What the loop does with the answer to a subscription. -/
def handleConnect (loop : FollowLoop) : ConnectAnswer → FollowLoop
  | .subscribed =>
      { loop with
        phase := .streaming (loop.resumePoint.getD loop.log.length)
          loop.resumePoint.isSome false }
  | .notServed => { loop with phase := .stopped }
  | .refused =>
      match loop.resume with
      | .cursor _ => { loop with
          resume := .since
          phase := .starting }
      | .since => { loop with
          resume := .live
          phase := .starting }
      | .live => { loop with phase := .stopped }
  | .failed retryAfter =>
      { loop with
        backoff := if retryAfter.isSome then loop.backoff
          else loop.backoff.next.2
        phase := .starting }

/-- The end of a reconcile round: only a complete one moves the revision. -/
def finishRound (loop : FollowLoop) (revision : Position) (results : Listings)
    (since : Position) (now : Time) : FollowLoop :=
  let ended := pollRound results now loop.mirror
  if ended.1.complete then
    { loop with
      mirror := ended.2
      lastRevision := some revision
      reconciled := max loop.reconciled since
      phase := .connecting }
  else
    { loop with
      mirror := ended.2
      backoff := loop.backoff.next.2
      phase := .starting }

def step (loop : FollowLoop) : FollowLoopEvent → Option FollowLoop
  | .remoteChange change => some { loop with log := loop.log ++ [change] }
  | .localChange table =>
      some { loop with mirror := { loop.mirror with table } }
  | .skipProbe =>
      match loop.phase with
      | .starting =>
          if loop.resume = .since then
            if loop.skipProbe then
              some { loop with
                skipProbe := false
                phase := .connecting }
            else none
          else some { loop with phase := .connecting }
      | _ => none
  | .probe answer =>
      match loop.phase with
      | .starting =>
          if loop.resume = .since ∧ loop.skipProbe = false then
            match answer with
            | .ok revision =>
                if loop.log.length < revision then none
                else if loop.lastRevision = some revision then
                  some { loop with phase := .connecting }
                else
                  some { loop with
                    phase := .reconciling revision
                      loop.mirror.table.loadedDirPrefixes [] loop.log.length }
            | .error _ => some { loop with phase := .connecting }
          else none
      | _ => none
  | .answerListing dir answer =>
      match loop.phase with
      | .reconciling revision waiting results since =>
          if dir ∈ waiting then
            some { loop with
              phase := .reconciling revision (waiting.erase dir)
                (results ++ [(dir, answer)]) since }
          else none
      | _ => none
  | .finishRound now =>
      match loop.phase with
      | .reconciling revision [] results since =>
          some (loop.finishRound revision results since now)
      | _ => none
  | .connect answer =>
      match loop.phase with
      | .connecting => some (loop.handleConnect answer)
      | _ => none
  | .receive raw upTo now =>
      match loop.phase with
      | .streaming sent anchored gotReady =>
          if loop.sends sent upTo raw then
            some (loop.receive sent anchored gotReady raw upTo now)
          else none
      | _ => none
  | .endStream =>
      match loop.phase with
      | .streaming _ _ gotReady => some (loop.endSession gotReady)
      | _ => none

/-- A session without a resume point reports no cursor. -/
def isAnchored (loop : FollowLoop) : FollowLoopEvent → Bool
  | .receive raw _ _ =>
      match loop.phase with
      | .streaming _ false _ =>
          (parseFollowEvent raw).all fun event => event.cursor.isNone
      | _ => true
  | _ => true

def Anchored (loop : FollowLoop) (event : FollowLoopEvent) : Prop :=
  loop.isAnchored event = true

instance (loop : FollowLoop) (event : FollowLoopEvent) :
    Decidable (loop.Anchored event) :=
  inferInstanceAs (Decidable (_ = true))

/-- The change at a position concerns the mount. -/
def Concerns (loop : FollowLoop) (position : Position) : Prop :=
  ∃ change, loop.log[position - 1]? = some change ∧
    (rebaseChange loop.mountDir change).isSome = true

/-- The change was applied, or came before a complete round, or was lost in a
payload that did not parse. -/
def Accounted (loop : FollowLoop) (position : Position) : Prop :=
  loop.passed position = true ∨ position ≤ loop.reconciled ∨
    loop.garbled position = true

/-- Every change up to the position is accounted for. -/
def AccountedUpTo (loop : FollowLoop) (last : Position) : Prop :=
  last ≤ loop.log.length ∧ ∀ position, 0 < position → position ≤ last →
    loop.Concerns position → loop.Accounted position

/-! ## No gap below the cursor -/

/-- What was accounted for before still is: the log only grows. -/
structure Keeps (before after : FollowLoop) : Prop where
  log : ∃ more, after.log = before.log ++ more
  mountDir : after.mountDir = before.mountDir
  passed : ∀ {position}, before.passed position = true →
    after.passed position = true
  garbled : ∀ {position}, before.garbled position = true →
    after.garbled position = true
  reconciled : before.reconciled ≤ after.reconciled

theorem AccountedUpTo.keeps {before after : FollowLoop} {last : Position}
    (accounted : before.AccountedUpTo last) (keeps : before.Keeps after) :
    after.AccountedUpTo last := by
  obtain ⟨more, log⟩ := keeps.log
  refine ⟨?_, ?_⟩
  · rw [log, List.length_append]
    exact Nat.le_add_right_of_le accounted.1
  · rintro position positive upTo ⟨change, found, concerns⟩
    have short : position - 1 < before.log.length :=
      Nat.lt_of_lt_of_le (Nat.sub_lt positive Nat.one_pos)
        (Nat.le_trans upTo accounted.1)
    rw [log, List.getElem?_append_left short] at found
    rw [keeps.mountDir] at concerns
    rcases accounted.2 position positive upTo ⟨change, found, concerns⟩ with
      passed | early | garbled
    · exact Or.inl (keeps.passed passed)
    · exact Or.inr (Or.inl (Nat.le_trans early keeps.reconciled))
    · exact Or.inr (Or.inr (keeps.garbled garbled))

/-- The resume points of the loop have no gap below them. -/
structure Gapless (loop : FollowLoop) : Prop where
  resume : ∀ {position}, loop.resume = .cursor position →
    loop.AccountedUpTo position
  last : ∀ {revision}, loop.lastRevision = some revision →
    revision ≤ loop.reconciled
  reconciled : loop.reconciled ≤ loop.log.length
  round : ∀ {revision waiting results since},
    loop.phase = .reconciling revision waiting results since →
    revision ≤ since ∧ since ≤ loop.log.length
  session : ∀ {sent gotReady}, loop.phase = .streaming sent true gotReady →
    loop.AccountedUpTo sent

/-- Outside rounds and sessions only the resume points matter. -/
theorem gapless_of_phase {loop : FollowLoop}
    (phase : loop.phase = .starting ∨ loop.phase = .connecting ∨
      loop.phase = .stopped)
    (resume : ∀ {position}, loop.resume = .cursor position →
      loop.AccountedUpTo position)
    (last : ∀ {revision}, loop.lastRevision = some revision →
      revision ≤ loop.reconciled)
    (reconciled : loop.reconciled ≤ loop.log.length) : loop.Gapless := by
  refine ⟨resume, last, reconciled, ?_, ?_⟩
  · intro revision waiting results since listing
    rcases phase with same | same | same <;> rw [same] at listing <;>
      cases listing
  · intro sent gotReady streaming
    rcases phase with same | same | same <;> rw [same] at streaming <;>
      cases streaming

theorem Gapless.resumePoint {loop : FollowLoop} (gapless : loop.Gapless)
    {position : Position} (point : loop.resumePoint = some position) :
    loop.AccountedUpTo position := by
  unfold FollowLoop.resumePoint at point
  split at point <;> rename_i resume
  · obtain rfl := Option.some.inj point
    exact gapless.resume resume
  · have early := gapless.last point
    exact ⟨Nat.le_trans early gapless.reconciled, fun _ _ upTo _ =>
      Or.inr (Or.inl (Nat.le_trans upTo early))⟩
  · cases point

theorem Gapless.endSession {loop : FollowLoop} (gapless : loop.Gapless)
    (healthy : Bool) : (loop.endSession healthy).Gapless := by
  have resume : ∀ {position},
      (if loop.resume = Resume.live then Resume.since else loop.resume) =
        .cursor position → loop.AccountedUpTo position := by
    intro position resumed
    split at resumed
    · cases resumed
    · exact gapless.resume resumed
  unfold FollowLoop.endSession
  dsimp only
  split
  · exact gapless_of_phase (Or.inl rfl) resume gapless.last gapless.reconciled
  · split
    · exact gapless_of_phase (Or.inr (Or.inr rfl)) resume gapless.last
        gapless.reconciled
    · exact gapless_of_phase (Or.inl rfl) resume gapless.last
        gapless.reconciled

/-- A loop with a new resume point, which is accounted for. -/
theorem Gapless.withResume {loop : FollowLoop} (gapless : loop.Gapless)
    {resume : Resume} (accounted : ∀ {position}, resume = .cursor position →
      loop.AccountedUpTo position) : Gapless { loop with resume } :=
  ⟨accounted, gapless.last, gapless.reconciled, gapless.round, gapless.session⟩

theorem Gapless.handleConnect {loop : FollowLoop} (gapless : loop.Gapless)
    (answer : ConnectAnswer) : (loop.handleConnect answer).Gapless := by
  unfold FollowLoop.handleConnect
  split
  · refine ⟨gapless.resume, gapless.last, gapless.reconciled, ?_, ?_⟩
    · intro revision waiting results since listing
      cases listing
    · intro sent gotReady streaming
      simp only [FollowPhase.streaming.injEq] at streaming
      obtain ⟨sentDef, anchored, _⟩ := streaming
      obtain ⟨position, point⟩ := Option.isSome_iff_exists.mp anchored
      rw [point, Option.getD_some] at sentDef
      exact sentDef ▸ gapless.resumePoint point
  · exact gapless_of_phase (Or.inr (Or.inr rfl)) gapless.resume gapless.last
      gapless.reconciled
  · split
    · exact gapless_of_phase (Or.inl rfl) (fun resumed => by cases resumed)
        gapless.last gapless.reconciled
    · exact gapless_of_phase (Or.inl rfl) (fun resumed => by cases resumed)
        gapless.last gapless.reconciled
    · exact gapless_of_phase (Or.inr (Or.inr rfl)) gapless.resume gapless.last
        gapless.reconciled
  · exact gapless_of_phase (Or.inl rfl) gapless.resume gapless.last
      gapless.reconciled

theorem Gapless.finishRound {loop : FollowLoop} (gapless : loop.Gapless)
    {revision since : Position} {results : Listings}
    (listing : loop.phase = .reconciling revision [] results since)
    (now : Time) : (loop.finishRound revision results since now).Gapless := by
  obtain ⟨order, bound⟩ := gapless.round listing
  unfold FollowLoop.finishRound
  dsimp only
  split
  · refine gapless_of_phase (Or.inr (Or.inl rfl)) ?_ ?_
      (Nat.max_le.mpr ⟨gapless.reconciled, bound⟩)
    · intro position resumed
      exact (gapless.resume resumed).keeps ⟨⟨[], (List.append_nil _).symm⟩, rfl,
        id, id, Nat.le_max_left _ _⟩
    · intro other last
      obtain rfl := Option.some.inj last
      exact Nat.le_trans order (Nat.le_max_right _ _)
  · exact gapless_of_phase (Or.inl rfl) gapless.resume gapless.last
      gapless.reconciled

/-- The positions of a batch are those of its changes that concern the mount. -/
theorem mem_concerning {log : List FollowChange} {mountDir : Path}
    {sent upTo position : Position} (after : sent < position)
    (within : position ≤ upTo) {change : FollowChange}
    (found : log[position - 1]? = some change)
    (concerns : (rebaseChange mountDir change).isSome = true) :
    position ∈ concerning mountDir sent (slice log sent upTo) := by
  unfold concerning slice
  refine List.mem_map.mpr ⟨(change, position), List.mem_filter.mpr
    ⟨List.mk_mem_zipIdx_iff_le_and_getElem?_sub.mpr ⟨after, ?_⟩, concerns⟩, rfl⟩
  rw [List.getElem?_drop, List.getElem?_take]
  have same : sent + (position - (sent + 1)) = position - 1 := by
    rw [Nat.add_comm sent 1, ← Nat.sub_sub,
      Nat.add_sub_cancel' (Nat.le_sub_one_of_lt after)]
  have short : position - 1 < upTo :=
    Nat.lt_of_lt_of_le (Nat.sub_lt (Nat.zero_lt_of_lt after) Nat.one_pos) within
  rw [same, if_pos short]
  exact found

/-- Positions after a batch that was passed on, or lost. -/
theorem AccountedUpTo.batch {before after : FollowLoop} {sent upTo : Position}
    (accounted : before.AccountedUpTo sent) (keeps : before.Keeps after)
    (log : after.log = before.log) (bound : upTo ≤ before.log.length)
    (batch : ∀ position ∈ concerning before.mountDir sent
      (slice before.log sent upTo), after.Accounted position) :
    after.AccountedUpTo upTo := by
  refine ⟨log ▸ bound, ?_⟩
  rintro position positive within ⟨change, found, concerns⟩
  by_cases earlier : position ≤ sent
  · exact (accounted.keeps keeps).2 position positive earlier
      ⟨change, found, concerns⟩
  · apply batch
    rw [log] at found
    rw [keeps.mountDir] at concerns
    exact mem_concerning (Nat.lt_of_not_le earlier) within found concerns

theorem AccountedUpTo.le {loop : FollowLoop} {first last : Position}
    (accounted : loop.AccountedUpTo last) (order : first ≤ last) :
    loop.AccountedUpTo first :=
  ⟨Nat.le_trans order accounted.1, fun position positive within =>
    accounted.2 position positive (Nat.le_trans within order)⟩

theorem nextEvent_cursor (mountDir : Path) (raw : RawEvent) :
    (nextEvent mountDir raw).map (·.cursor) =
      (parseFollowEvent raw).map (·.cursor) := by
  unfold nextEvent
  rw [Option.map_map]
  congr 1
  funext event
  cases event <;> rfl

/-- A cursor that the server reports covers only what it has sent. -/
theorem cursor_le_of_sends {loop : FollowLoop} {sent upTo : Position}
    {raw : RawEvent} (sends : loop.sends sent upTo raw = true)
    {event : FollowEvent} (parsed : parseFollowEvent raw = some event)
    {position : Position} (cursor : event.cursor = some position) :
    position ≤ upTo := by
  cases raw with
  | ready payload =>
      cases payload with
      | none => cases parsed
      | some reported =>
          obtain rfl := Option.some.inj parsed
          obtain rfl : reported = some position := cursor
          simp only [FollowLoop.sends, Bool.and_eq_true, decide_eq_true_eq,
            Option.join_some, Option.all_some] at sends
          exact sends.1 ▸ sends.2
  | reconnect payload =>
      cases payload with
      | none => cases parsed
      | some reported =>
          obtain rfl := Option.some.inj parsed
          obtain rfl : reported = some position := cursor
          simp only [FollowLoop.sends, Bool.and_eq_true, decide_eq_true_eq,
            Option.join_some, Option.all_some] at sends
          exact sends.1 ▸ sends.2
  | changes payload =>
      cases payload with
      | none => cases parsed
      | some data =>
          obtain rfl := Option.some.inj parsed
          obtain rfl := Option.some.inj cursor
          simp only [FollowLoop.sends, Bool.and_eq_true, decide_eq_true_eq,
            Option.all_some] at sends
          rw [sends.2]
  | reset =>
      obtain rfl := Option.some.inj parsed
      cases cursor
  | unknown => cases parsed

theorem upTo_le_of_sends {loop : FollowLoop} {sent upTo : Position}
    {raw : RawEvent} (sends : loop.sends sent upTo raw = true)
    (bound : sent ≤ loop.log.length) : upTo ≤ loop.log.length := by
  cases raw with
  | changes payload =>
      simp only [FollowLoop.sends, Bool.and_eq_true, decide_eq_true_eq] at sends
      exact sends.1.2
  | _ =>
      simp only [FollowLoop.sends, Bool.and_eq_true, decide_eq_true_eq] at sends
      first
      | exact sends.1 ▸ bound
      | exact sends ▸ bound

theorem Gapless.handleEvent {loop : FollowLoop} (gapless : loop.Gapless)
    {upTo : Position} {anchored : Bool}
    (session : anchored = true → loop.AccountedUpTo upTo) (gotReady : Bool)
    (now : Time) {event : FollowEvent}
    (reported : ∀ {position}, event.cursor = some position →
      loop.AccountedUpTo position) :
    (loop.handleEvent upTo anchored gotReady now event).Gapless := by
  have resumed : ∀ {cursor : Option Position}, event.cursor = cursor →
      ∀ {position}, (cursor.map Resume.cursor).getD loop.resume =
        .cursor position → loop.AccountedUpTo position := by
    intro cursor same position resume
    cases cursor with
    | none => exact gapless.resume resume
    | some other =>
        cases resume
        exact reported same
  have streaming : ∀ {current : FollowLoop} {ready : Bool},
      current.phase = .streaming upTo anchored ready →
      (∀ {position}, current.resume = .cursor position →
        current.AccountedUpTo position) →
      current.lastRevision = loop.lastRevision →
      current.reconciled = loop.reconciled → current.log = loop.log →
      (loop.AccountedUpTo upTo → current.AccountedUpTo upTo) →
      current.Gapless := by
    intro current ready phase resume last reconciled log kept
    refine ⟨resume, ?_, ?_, ?_, ?_⟩
    · intro revision found
      rw [reconciled]
      exact gapless.last (last ▸ found)
    · rw [reconciled, log]
      exact gapless.reconciled
    · intro revision waiting results since listing
      rw [phase] at listing
      cases listing
    · intro sent isReady same
      rw [phase] at same
      cases same
      exact kept (session rfl)
  cases event with
  | ready cursor =>
      exact streaming rfl (resumed rfl) rfl rfl rfl id
  | changes cursor changes =>
      refine streaming rfl ?_ rfl rfl rfl id
      intro position same
      cases same
      exact reported rfl
  | reset =>
      exact (gapless.withResume fun same => by cases same).endSession true
  | reconnect cursor =>
      exact (gapless.withResume (resumed rfl)).endSession true

theorem Gapless.receive {loop : FollowLoop} (gapless : loop.Gapless)
    {sent upTo : Position} {anchored gotReady : Bool}
    (phase : loop.phase = .streaming sent anchored gotReady) {raw : RawEvent}
    (sends : loop.sends sent upTo raw = true)
    (silent : anchored = false → ∀ event, parseFollowEvent raw = some event →
      event.cursor = none) (now : Time) :
    (loop.receive sent anchored gotReady raw upTo now).Gapless := by
  have noRound : ∀ {revision waiting results since}, loop.phase ≠
      .reconciling revision waiting results since := by
    rw [phase]
    intro revision waiting results since listing
    cases listing
  unfold FollowLoop.receive
  dsimp only
  split <;> rename_i parsed
  · -- The payload is lost, and its changes with it.
    have keeps : loop.Keeps
        { loop with
          garbled := fun position => loop.garbled position ||
            (concerning loop.mountDir sent
              (slice loop.log sent upTo)).contains position
          phase := .streaming upTo anchored gotReady } := by
      refine ⟨⟨[], (List.append_nil _).symm⟩, rfl, id, ?_, Nat.le_refl _⟩
      intro position garbled
      simp [garbled]
    refine ⟨fun resume => (gapless.resume resume).keeps keeps, gapless.last,
      gapless.reconciled, fun listing => (by cases listing), ?_⟩
    intro position ready streaming
    cases streaming
    have accounted := gapless.session phase
    apply accounted.batch keeps rfl (upTo_le_of_sends sends accounted.1)
    intro position member
    right
    right
    simp [member]
  · rename_i event
    obtain ⟨passedOn, passedOnDef⟩ : ∃ passedOn : FollowLoop, passedOn =
        { loop with
          passed := fun position => loop.passed position ||
            (concerning loop.mountDir sent
              (slice loop.log sent upTo)).contains position } := ⟨_, rfl⟩
    have keeps : loop.Keeps passedOn := by
      rw [passedOnDef]
      refine ⟨⟨[], (List.append_nil _).symm⟩, rfl, ?_, id, Nat.le_refl _⟩
      intro position passed
      simp [passed]
    have sameLog : passedOn.log = loop.log := by rw [passedOnDef]
    have sessionKept : anchored = true → passedOn.AccountedUpTo upTo := by
      rintro rfl
      have accounted := gapless.session phase
      apply accounted.batch keeps sameLog (upTo_le_of_sends sends accounted.1)
      intro position member
      left
      rw [passedOnDef]
      simp [member]
    have same := nextEvent_cursor loop.mountDir raw
    rw [parsed] at same
    obtain ⟨raw', parsedRaw, sameCursor⟩ :=
      Option.map_eq_some_iff.mp same.symm
    rw [← passedOnDef]
    apply Gapless.handleEvent _ sessionKept
    · intro position cursor
      have reportedRaw := sameCursor.trans cursor
      cases anchored with
      | true =>
          exact (sessionKept rfl).le
            (cursor_le_of_sends sends parsedRaw reportedRaw)
      | false =>
          rw [silent rfl raw' parsedRaw] at reportedRaw
          cases reportedRaw
    · have samePhase : passedOn.phase = loop.phase := by rw [passedOnDef]
      refine ⟨?_, ?_, ?_, ?_, ?_⟩
      · intro position resume
        rw [passedOnDef] at resume
        exact (gapless.resume resume).keeps keeps
      · rw [passedOnDef]
        exact gapless.last
      · rw [passedOnDef]
        exact gapless.reconciled
      · intro revision waiting results since listing
        exact absurd (samePhase.symm.trans listing) noRound
      · intro position ready streaming
        exact (gapless.session (samePhase.symm.trans streaming)).keeps keeps

theorem gapless_start (log : List FollowChange) (mountDir : Path)
    (table : InodeTable) (primed : Bool) :
    (start log mountDir table primed).Gapless := by
  refine gapless_of_phase (Or.inl rfl) (fun resume => by cases resume) ?_ ?_
  · cases primed with
    | true =>
        intro revision last
        obtain rfl := Option.some.inj last
        exact Nat.le_refl _
    | false =>
        intro revision last
        cases last
  · cases primed with
    | true => exact Nat.le_refl _
    | false => exact Nat.zero_le _

theorem gapless_step {loop next : FollowLoop} {event : FollowLoopEvent}
    (gapless : loop.Gapless) (sound : loop.Anchored event)
    (stepped : loop.step event = some next) : next.Gapless := by
  cases event with
  | remoteChange change =>
      obtain rfl := Option.some.inj stepped
      have keeps : loop.Keeps { loop with log := loop.log ++ [change] } :=
        ⟨⟨[change], rfl⟩, rfl, id, id, Nat.le_refl _⟩
      have longer : loop.log.length ≤ (loop.log ++ [change]).length := by simp
      refine ⟨fun resume => (gapless.resume resume).keeps keeps, gapless.last,
        Nat.le_trans gapless.reconciled longer, ?_,
        fun session => (gapless.session session).keeps keeps⟩
      intro revision waiting results since listing
      obtain ⟨order, bound⟩ := gapless.round listing
      exact ⟨order, Nat.le_trans bound longer⟩
  | localChange table =>
      obtain rfl := Option.some.inj stepped
      exact ⟨gapless.resume, gapless.last, gapless.reconciled, gapless.round,
        gapless.session⟩
  | skipProbe =>
      simp only [step] at stepped
      split at stepped
      · split at stepped
        · split at stepped
          · obtain rfl := Option.some.inj stepped
            exact gapless_of_phase (Or.inr (Or.inl rfl)) gapless.resume
              gapless.last gapless.reconciled
          · cases stepped
        · obtain rfl := Option.some.inj stepped
          exact gapless_of_phase (Or.inr (Or.inl rfl)) gapless.resume
            gapless.last gapless.reconciled
      · cases stepped
  | probe answer =>
      have connecting : Gapless { loop with phase := .connecting } :=
        gapless_of_phase (Or.inr (Or.inl rfl)) gapless.resume gapless.last
          gapless.reconciled
      simp only [step] at stepped
      split at stepped
      · split at stepped
        · split at stepped
          · split at stepped <;> rename_i revision seen
            · cases stepped
            · split at stepped
              · obtain rfl := Option.some.inj stepped
                exact connecting
              · obtain rfl := Option.some.inj stepped
                refine ⟨gapless.resume, gapless.last, gapless.reconciled, ?_,
                  fun session => by cases session⟩
                intro other waiting results since listing
                cases listing
                exact ⟨Nat.le_of_not_lt seen, Nat.le_refl _⟩
          · obtain rfl := Option.some.inj stepped
            exact connecting
        · cases stepped
      · cases stepped
  | answerListing dir answer =>
      simp only [step] at stepped
      split at stepped <;> rename_i phase
      · split at stepped
        · obtain rfl := Option.some.inj stepped
          refine ⟨gapless.resume, gapless.last, gapless.reconciled, ?_,
            fun session => by cases session⟩
          intro other waiting results since listing
          cases listing
          exact gapless.round phase
        · cases stepped
      · cases stepped
  | finishRound now =>
      simp only [step] at stepped
      split at stepped <;> rename_i phase
      · obtain rfl := Option.some.inj stepped
        exact gapless.finishRound phase now
      · cases stepped
  | connect answer =>
      simp only [step] at stepped
      split at stepped
      · obtain rfl := Option.some.inj stepped
        exact gapless.handleConnect answer
      · cases stepped
  | receive raw upTo now =>
      simp only [step] at stepped
      split at stepped <;> rename_i phase
      · split at stepped <;> rename_i sends
        · obtain rfl := Option.some.inj stepped
          refine gapless.receive phase sends ?_ now
          rintro rfl event parsed
          simpa [Anchored, isAnchored, phase, parsed] using sound
        · cases stepped
      · cases stepped
  | endStream =>
      simp only [step] at stepped
      split at stepped
      · obtain rfl := Option.some.inj stepped
        exact gapless.endSession _
      · cases stepped

/-- While the loop holds a cursor, every change up to it that concerns the
mount was applied, came before a complete round or the primed revision, or was
in a payload that did not parse. -/
theorem accounted_up_to_cursor {log : List FollowChange} {mountDir : Path}
    {table : InodeTable} {primed : Bool} {events : List FollowLoopEvent}
    {loop : FollowLoop} {cursor : Position}
    (anchored : AllSteps step Anchored (start log mountDir table primed) events)
    (run : exec step (start log mountDir table primed) events = some loop)
    (holds : loop.resume = .cursor cursor) :
    ∀ position, 0 < position → position ≤ cursor → loop.Concerns position →
      loop.Accounted position := by
  have gapless : loop.Gapless :=
    exec_invariant (fun _ _ _ holds good stepped =>
      gapless_step holds good stepped) (gapless_start log mountDir table primed)
      anchored run
  exact (gapless.resume holds).2

/-- The change that adds a file. -/
def added (path : Path) : FollowChange :=
  { path
    op := .add
    size := some 1
    xetHash := some ['h']
    uploadedAt := some 0
    mtime := none }

/-- Two changes arrive in two batches, and the first payload is given. -/
def twoBatches (first : Option (Position × List FollowChange)) :
    List FollowLoopEvent :=
  [.skipProbe, .connect .subscribed, .remoteChange (added ['a']),
    .receive (.changes first) 1 0, .remoteChange (added ['b']),
    .receive (.changes (some (2, [added ['b']]))) 2 0]

theorem accounted_up_to_cursor_two_batches :
    ((exec step (start [] [] .new true)
      (twoBatches (some (1, [added ['a']])))).get (by decide)).Accounted 2 :=
  accounted_up_to_cursor (by decide) (Option.some_get _).symm rfl 2
    (by decide) (by decide) ⟨_, rfl, rfl⟩

/-- A batch whose payload does not parse is passed over by the next cursor. -/
theorem not_passed_up_to_cursor : ¬ ∀ (log : List FollowChange)
    (mountDir : Path) (table : InodeTable) (primed : Bool)
    (events : List FollowLoopEvent) (loop : FollowLoop) (cursor : Position),
    exec step (start log mountDir table primed) events = some loop →
    loop.resume = .cursor cursor → ∀ position, 0 < position →
      position ≤ cursor → loop.Concerns position →
      loop.passed position = true ∨ position ≤ loop.reconciled := by
  intro accounted
  have run := (Option.some_get (show (exec step (start [] [] .new true)
    (twoBatches none)).isSome by decide)).symm
  have missed := accounted [] [] .new true (twoBatches none) _ 2 run rfl 1
    (by decide) (by decide) ⟨added ['a'], rfl, rfl⟩
  revert missed
  decide

end FollowLoop

end HfMount.Poll
