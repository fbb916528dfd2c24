import HfMount.Cache.Populate

/-!
# One download for each hash

Every step of the file cache is a step of a single flight: the guard of a
leader removes the key and notifies the waiting calls on every way out, so no
condition on the run is needed.
-/

namespace HfMount.Cache

open Transition SingleFlight

/-- The part of a call in the single flight. -/
def Call.role (call : Call) : Option (Role Hash) :=
  match call.phase with
  | .leading channel | .fetching channel | .downloaded channel _
  | .renamed channel _ | .evicting channel _ | .leaving channel _ =>
      some (.leads call.hash channel)
  | .waiting channel => some (.waits call.hash channel)
  | _ => none

namespace FileCache

def flights (cache : FileCache) : Flights Hash :=
  { inflight := cache.inflight
    role := fun call => (cache.calls call).bind Call.role
    notified := cache.notified }

theorem flights_setCall (cache : FileCache) (call : Nat) (found : Call)
    (phase : Phase) :
    (cache.setCall call found phase).flights =
      { cache.flights with
        role := Function.update cache.flights.role call
          (Call.role { found with phase }) } := by
  simp only [flights, setCall]
  congr 1
  funext other
  by_cases same : other = call
  · subst same
    simp
  · simp [same]

/-- A new phase with the same part leaves the single flight as it is. -/
theorem flights_setCall_of_same {cache : FileCache} {call : Nat} {found : Call}
    {phase : Phase} (here : cache.calls call = some found)
    (same : Call.role { found with phase } = Call.role found) :
    (cache.setCall call found phase).flights = cache.flights := by
  have role : cache.flights.role call = Call.role found := by
    simp [flights, here]
  rw [flights_setCall, same, ← role, Function.update_eq_self]

/-- The single flight after a step of a call. -/
inductive Moves (before after : Flights Hash) : Prop
  | same : after = before → Moves before after
  | one : SingleFlight.Step before after → Moves before after
  | two {middle : Flights Hash} : SingleFlight.Step before middle →
      SingleFlight.Step middle after → Moves before after

theorem Moves.attended {before after : Flights Hash}
    (moves : Moves before after) (attended : Attended before) :
    Attended after := by
  cases moves with
  | same same => exact same ▸ attended
  | one step => exact attended.step step
  | two first second => exact (attended.step first).step second

theorem role_of_isFirst {new : Call} (first : Phase.IsFirst new.phase) :
    new.role = none := by
  obtain ⟨hash, expectedSize, phase⟩ := new
  cases phase <;> simp [Phase.IsFirst, Call.role] at first ⊢

theorem flights_begin {cache : FileCache} {call : Nat} {new : Call}
    (free : cache.calls call = none) (first : Phase.IsFirst new.phase) :
    flights
        { cache with
          calls := Function.update cache.calls call (some new) } =
      cache.flights := by
  simp only [flights]
  congr 1
  funext other
  by_cases same : other = call
  · subst same
    simp [free, role_of_isFirst first]
  · simp [same]

theorem moves_advance {cache next : FileCache} {call : Nat} {found : Call}
    {action : Action} (here : cache.calls call = some found)
    (stepped : cache.advance call found action = some next) :
    Moves cache.flights next.flights := by
  have role : cache.flights.role call = Call.role found := by
    simp [flights, here]
  have stays : ∀ {cache : FileCache} {phase : Phase},
      cache.calls call = some found →
      Call.role { found with phase } = Call.role found →
      Moves cache.flights (cache.setCall call found phase).flights :=
    fun there same => .same (flights_setCall_of_same there same)
  unfold advance at stepped
  split at stepped <;> rename_i phase
  · -- `check`
    split at stepped
    all_goals
      obtain rfl := Option.some.inj stepped
      exact stays here (by simp [Call.role, phase])
  · -- `enter`
    have free : cache.flights.role call = none := by
      simp [role, Call.role, phase]
    split at stepped
    · obtain rfl := Option.some.inj stepped
      exact stays here (by simp [Call.role, phase])
    · split at stepped <;> rename_i registered
      · obtain rfl := Option.some.inj stepped
        rw [flights_setCall]
        exact .one (.join free registered)
      · obtain rfl := Option.some.inj stepped
        rw [flights_setCall]
        exact .one (.lead free registered)
  · -- `wake`
    rename_i channel
    have waits : cache.flights.role call = some (.waits found.hash channel) := by
      simp [role, Call.role, phase]
    split at stepped
    · obtain rfl := Option.some.inj stepped
      rw [flights_setCall]
      exact .one (.leave waits)
    · cases stepped
  · -- `recheck`
    split at stepped
    all_goals
      obtain rfl := Option.some.inj stepped
      exact stays here (by simp [Call.role, phase])
  · -- `acquire`
    split at stepped
    · split at stepped
      all_goals
        obtain rfl := Option.some.inj stepped
        exact stays here (by simp [Call.role, phase])
    · cases stepped
  · -- `fetched`
    obtain rfl := Option.some.inj stepped
    exact stays here (by simp [Call.role, phase])
  · obtain rfl := Option.some.inj stepped
    exact stays here (by simp [Call.role, phase])
  · -- `rename`
    split at stepped
    · obtain rfl := Option.some.inj stepped
      exact stays here (by simp [Call.role, phase])
    split at stepped
    · obtain rfl := Option.some.inj stepped
      exact stays here (by simp [Call.role, phase])
    split at stepped
    all_goals
      obtain rfl := Option.some.inj stepped
      exact stays here (by simp [Call.role, phase])
  · -- `publish`
    split at stepped
    · obtain rfl := Option.some.inj stepped
      exact stays here (by simp [Call.role, phase])
    · cases stepped
  · -- `evict`
    obtain rfl := Option.some.inj stepped
    exact stays here (by simp [Call.role, phase])
  · obtain rfl := Option.some.inj stepped
    exact stays here (by simp [Call.role, phase])
  · -- `release`: the guard removes the key and notifies under one lock
    rename_i channel outcome
    have leads : cache.flights.role call = some (.leads found.hash channel) := by
      simp [role, Call.role, phase]
    obtain rfl := Option.some.inj stepped
    have released := @SingleFlight.Step.notify _ _
      { cache.flights with
        inflight := Function.update cache.inflight found.hash none
        role := Function.update cache.flights.role call
          (some (.notifies found.hash channel)) }
      call channel found.hash (Function.update_self _ _ _)
    refine .two (.remove leads) ?_
    rw [flights_setCall]
    rw [Function.update_idem] at released
    exact released
  · -- `lookup`
    split at stepped
    all_goals
      obtain rfl := Option.some.inj stepped
      exact stays here (by simp [Call.role, phase])
  · -- `openFile`
    split at stepped
    all_goals
      obtain rfl := Option.some.inj stepped
      exact stays here (by simp [Call.role, phase])
  · -- `erase`
    obtain rfl := Option.some.inj stepped
    exact stays here (by simp [Call.role, phase])
  · -- `unlink`
    obtain rfl := Option.some.inj stepped
    exact stays here (by simp [Call.role, phase])
  · -- `drop` while nobody waits for the call
    obtain rfl := Option.some.inj stepped
    exact stays here (by simp [Call.role, phase])
  · -- `drop` of a waiting call
    rename_i channel
    have waits : cache.flights.role call = some (.waits found.hash channel) := by
      simp [role, Call.role, phase]
    obtain rfl := Option.some.inj stepped
    rw [flights_setCall]
    exact .one (.leave waits)
  · obtain rfl := Option.some.inj stepped
    exact stays here (by simp [Call.role, phase])
  · obtain rfl := Option.some.inj stepped
    exact stays here (by simp [Call.role, phase])
  · obtain rfl := Option.some.inj stepped
    exact stays here (by simp [Call.role, phase])
  · -- `drop` of a leader: the guard is still to be dropped
    obtain rfl := Option.some.inj stepped
    exact stays here (by simp [Call.role, phase])
  · obtain rfl := Option.some.inj stepped
    exact stays here (by simp [Call.role, phase])
  · obtain rfl := Option.some.inj stepped
    exact stays here (by simp [Call.role, phase])
  · cases stepped

theorem moves_step {cache next : FileCache} {event : Event}
    (stepped : cache.step event = some next) :
    Moves cache.flights next.flights := by
  rcases step_cases stepped with ⟨call, new, free, first, rfl⟩ |
    ⟨call, found, action, rfl, here, moved⟩
  · exact .same (flights_begin free first)
  · exact moves_advance here moved

theorem attended_new (root : Option (List Shard)) (capacity : Nat) :
    Attended (new root capacity).flights := by
  constructor
  · intro hash channel present
    cases present
  · intro call hash channel leads
    cases leads
  · intro first second hash channel other leads
    cases leads
  · intro call hash channel waits
    cases waits

/-! ## What is published -/

theorem itemPath_injective {left right : Hash}
    (same : itemPath left = itemPath right) : left = right :=
  congrArg Prod.snd same

theorem publishes_eq_some {found : Call} {size : Nat} :
    found.publishes = some size ↔
      ∃ channel, found.phase = .renamed channel size := by
  unfold Call.publishes
  cases found.phase <;> simp

theorem leads_of_publishes {cache : FileCache} {call : Nat} {found : Call}
    {size : Nat} (here : cache.calls call = some found)
    (publishes : found.publishes = some size) :
    ∃ channel, cache.flights.role call = some (.leads found.hash channel) := by
  obtain ⟨channel, renamed⟩ := publishes_eq_some.mp publishes
  exact ⟨channel, by simp [flights, here, Call.role, renamed]⟩

/-- A call that is about to publish has the expected size, which fits, and its
file has this size unless it has been removed. -/
def Checked (cache : FileCache) : Prop :=
  ∀ call found size, cache.calls call = some found →
    found.publishes = some size →
    (∀ expected, found.expectedSize = some expected → size = expected) ∧
      size ≤ cache.memory.capacity ∧
      ∀ onDisk, cache.disk (itemPath found.hash) = some onDisk →
        onDisk = size

/-- A step that lets no call get ready to publish, and only removes files. -/
theorem Checked.of_quiet {cache next : FileCache} (checked : cache.Checked)
    {call : Nat} {new : Call}
    (calls : next.calls = Function.update cache.calls call (some new))
    (idle : new.publishes = none)
    (capacity : next.memory.capacity = cache.memory.capacity)
    (disk : ∀ path onDisk, next.disk path = some onDisk →
      cache.disk path = some onDisk) : next.Checked := by
  intro other found size here publishes
  rw [calls] at here
  by_cases same : other = call
  · subst same
    rw [Function.update_self] at here
    obtain rfl := Option.some.inj here
    rw [idle] at publishes
    cases publishes
  · rw [Function.update_of_ne same] at here
    obtain ⟨expected, fits, onDisk⟩ := checked other found size here publishes
    exact ⟨expected, capacity ▸ fits, fun length present =>
      onDisk length (disk _ _ present)⟩

theorem disk_of_removed {disk : ItemPath → Option Nat} {removed path : ItemPath}
    {onDisk : Nat}
    (present : Function.update disk removed none path = some onDisk) :
    disk path = some onDisk := by
  by_cases same : path = removed
  · rw [same, Function.update_self] at present
    cases present
  · rwa [Function.update_of_ne same] at present

theorem capacity_touch {memory touched : Memory} {hash : Hash}
    (hit : memory.touch hash = some touched) :
    touched.capacity = memory.capacity := by
  unfold Memory.touch at hit
  split at hit
  · cases hit
  · obtain rfl := Option.some.inj hit
    rfl

/-- Only a call that has renamed its file publishes. -/
theorem renamed_of_publish {cache next : FileCache} {call : Nat}
    {found : Call} {order : List Entry}
    (stepped : cache.advance call found (.publish order) = some next) :
    found.publishes ≠ none := by
  obtain ⟨hash, expectedSize, phase⟩ := found
  cases phase <;> simp [FileCache.advance, Call.publishes] at stepped ⊢

theorem Checked.advance {cache next : FileCache} (checked : cache.Checked)
    (attended : Attended cache.flights) {call : Nat} {found : Call}
    {action : Action} (here : cache.calls call = some found)
    (stepped : cache.advance call found action = some next) :
    next.Checked := by
  obtain ⟨phase, calls, _, effect⟩ := advanced stepped
  have unchanged : next.disk = cache.disk → ∀ path onDisk,
      next.disk path = some onDisk → cache.disk path = some onDisk :=
    fun same path onDisk present => same ▸ present
  cases effect with
  | quiet _ _ idle _ memory disk =>
      exact checked.of_quiet calls idle (memory ▸ rfl) (unchanged disk)
  | touch _ hit memory disk =>
      exact checked.of_quiet calls rfl (memory ▸ capacity_touch hit)
        (unchanged disk)
  | publish _ _ memory disk =>
      exact checked.of_quiet calls rfl (memory ▸ rfl) (unchanged disk)
  | evict _ memory disk =>
      exact checked.of_quiet calls rfl (memory ▸ rfl)
        fun path onDisk present => disk_of_removed (disk ▸ present)
  | abandon _ memory disk =>
      exact checked.of_quiet calls rfl (memory ▸ rfl) (unchanged disk)
  | erase _ memory disk =>
      exact checked.of_quiet calls rfl (memory ▸ rfl) (unchanged disk)
  | unlink _ memory disk =>
      exact checked.of_quiet calls rfl (memory ▸ rfl)
        fun path onDisk present => disk_of_removed (disk ▸ present)
  | @rename channel size downloaded expected fits memory disk =>
      intro other otherFound otherSize there publishes
      rw [calls] at there
      rw [memory, disk]
      by_cases same : other = call
      · subst same
        rw [Function.update_self] at there
        obtain rfl := Option.some.inj there
        obtain ⟨_, renamed⟩ := publishes_eq_some.mp publishes
        obtain ⟨_, rfl⟩ := Phase.renamed.inj renamed
        refine ⟨expected, fits, fun onDisk present => ?_⟩
        rw [Function.update_self] at present
        exact (Option.some.inj present).symm
      · rw [Function.update_of_ne same] at there
        obtain ⟨otherExpected, otherFits, onDisk⟩ :=
          checked other otherFound otherSize there publishes
        refine ⟨otherExpected, otherFits, ?_⟩
        have elsewhere : itemPath otherFound.hash ≠ itemPath found.hash := by
          intro path
          obtain ⟨otherChannel, otherLeads⟩ :=
            leads_of_publishes there publishes
          have leads : cache.flights.role call =
              some (.leads found.hash channel) := by
            simp [flights, here, Call.role, downloaded]
          rw [itemPath_injective path] at otherLeads
          exact same (attended.leader otherLeads leads)
        rw [Function.update_of_ne elsewhere]
        exact onDisk

theorem Checked.step {cache next : FileCache} (checked : cache.Checked)
    (attended : Attended cache.flights) {event : Event}
    (stepped : cache.step event = some next) : next.Checked := by
  rcases step_cases stepped with ⟨call, new, free, first, rfl⟩ |
    ⟨call, found, action, rfl, here, moved⟩
  · exact checked.of_quiet rfl (publishes_of_isFirst first) rfl
      fun _ _ present => present
  · exact checked.advance attended here moved

theorem checked_new (root : Option (List Shard)) (capacity : Nat) :
    (new root capacity).Checked := by
  intro call found size here
  cases here

theorem attended_and_checked {root : Option (List Shard)} {capacity : Nat}
    {events : List Event} {cache : FileCache}
    (run : exec step (new root capacity) events = some cache) :
    Attended cache.flights ∧ cache.Checked := by
  have preserved : ∀ (cache : FileCache) event next,
      Attended cache.flights ∧ cache.Checked →
      cache.step event = some next →
      Attended next.flights ∧ next.Checked := by
    intro cache event next both stepped
    exact ⟨(moves_step stepped).attended both.1, both.2.step both.1 stepped⟩
  exact exec_invariant_of_step preserved
    ⟨attended_new root capacity, checked_new root capacity⟩ run

/-! ## Followers -/

/-- The call has been waiting on the channel and has not returned `Ok`. -/
def Follows (cache : FileCache) (follower : Nat) (found : Call)
    (channel : Nat) : Prop :=
  ∃ phase, cache.calls follower = some { found with phase } ∧
    (phase = .waiting channel ∨
      phase = .woken channel ∧ cache.notified channel = true ∨
      phase = .finished .dropped ∨ phase = .finished .error)

/-- The channel has been notified, and the cache has the file. -/
def SeesFile (channel : Nat) (hash : Hash) (cache : FileCache) : Prop :=
  cache.notified channel = true ∧ cache.contains hash = true

theorem Follows.own {cache next : FileCache} {follower channel : Nat}
    {found : Call} (follows : cache.Follows follower found channel)
    {action : Action}
    (stepped : cache.step (.advance follower action) = some next) :
    next.Follows follower found channel ∨
      SeesFile channel found.hash next := by
  obtain ⟨phase, here, stands⟩ := follows
  obtain ⟨_, again, moved⟩ := Option.bind_eq_some_iff.mp stepped
  obtain rfl := Option.some.inj (here.symm.trans again)
  rcases stands with rfl | ⟨rfl, notified⟩ | rfl | rfl
  · cases action <;> simp [advance] at moved
    case wake =>
      obtain ⟨notified, rfl⟩ := moved
      exact Or.inl ⟨.woken channel, Function.update_self _ _ _,
        Or.inr (Or.inl ⟨rfl, notified⟩)⟩
    case drop =>
      subst moved
      exact Or.inl ⟨.finished .dropped, Function.update_self _ _ _,
        Or.inr (Or.inr (Or.inl rfl))⟩
  · cases action <;> simp [advance] at moved
    case recheck =>
      split at moved <;> rename_i listed
      · obtain rfl := Option.some.inj moved
        exact Or.inr ⟨notified, listed⟩
      · obtain rfl := Option.some.inj moved
        exact Or.inl ⟨.finished .error, Function.update_self _ _ _,
          Or.inr (Or.inr (Or.inr rfl))⟩
    case drop =>
      subst moved
      exact Or.inl ⟨.finished .dropped, Function.update_self _ _ _,
        Or.inr (Or.inr (Or.inl rfl))⟩
  · cases action <;> simp [advance] at moved
  · cases action <;> simp [advance] at moved

/-- A step of another call. -/
theorem Follows.frame {cache next : FileCache} {follower channel : Nat}
    {found : Call} (follows : cache.Follows follower found channel)
    (calls : next.calls follower = cache.calls follower)
    (notified : cache.notified channel = true →
      next.notified channel = true) :
    next.Follows follower found channel := by
  obtain ⟨phase, here, stands⟩ := follows
  refine ⟨phase, calls.trans here, ?_⟩
  rcases stands with waiting | ⟨woken, known⟩ | ended
  · exact Or.inl waiting
  · exact Or.inr (Or.inl ⟨woken, notified known⟩)
  · exact Or.inr (Or.inr ended)

theorem Follows.step {cache next : FileCache} {follower channel : Nat}
    {found : Call} (follows : cache.Follows follower found channel)
    {event : Event} (stepped : cache.step event = some next) :
    next.Follows follower found channel ∨
      SeesFile channel found.hash next := by
  rcases step_cases stepped with ⟨call, new, free, first, rfl⟩ |
    ⟨call, other, action, rfl, here, moved⟩
  · refine Or.inl (follows.frame (Function.update_of_ne ?_ _ _) id)
    obtain ⟨_, there, _⟩ := follows
    intro same
    rw [same, free] at there
    cases there
  · by_cases same : call = follower
    · subst same
      exact follows.own stepped
    · obtain ⟨phase, calls, notified, _⟩ := advanced moved
      refine Or.inl (follows.frame ?_ (notified channel))
      rw [calls]
      exact Function.update_of_ne (Ne.symm same) _ _

/-- A follower that returns `Ok` has seen the file after it was woken. -/
theorem Follows.sees {cache final : FileCache} {follower channel : Nat}
    {found : Call} (follows : cache.Follows follower found channel)
    {events : List Event}
    (run : exec FileCache.step cache events = some final)
    (returned : final.calls follower =
      some { found with phase := .finished .ok }) :
    Sometime FileCache.step (SeesFile channel found.hash) cache events := by
  have preserved : ∀ (cache : FileCache) event next,
      cache.Follows follower found channel → True →
      cache.step event = some next →
      next.Follows follower found channel ∨
        SeesFile channel found.hash next :=
    fun cache event next follows _ stepped => follows.step stepped
  have allowed : AllSteps FileCache.step (fun _ _ => True) cache events :=
    allSteps_of_forall fun _ _ => trivial
  rcases exec_invariant_or_sometime preserved (Or.inl follows) allowed run with
    still | sometime
  · obtain ⟨phase, here, stands⟩ := still
    obtain rfl : Phase.finished .ok = phase := by
      simpa using returned.symm.trans here
    rcases stands with ended | ⟨ended, _⟩ | ended | ended <;> cases ended
  · exact sometime

/-! ## Single flight -/

/-- The call downloads the file of the hash. -/
def Fetches (cache : FileCache) (hash : Hash) (call : Nat) : Prop :=
  ∃ found channel, cache.calls call = some found ∧ found.hash = hash ∧
    found.phase = .fetching channel

/-- In every state that a run reaches: every key in flight has one running
leader, and every waiting call has been notified or has a running leader; no
two calls download the same file; what is published has the expected size,
which fits, and its file has no other size; and a follower that returns `Ok`
later has then seen the file after it was woken. -/
theorem populate_single_flight {root : Option (List Shard)} {capacity : Nat}
    {events : List Event} {cache : FileCache}
    (run : exec step (new root capacity) events = some cache) :
    Attended cache.flights ∧
    (∀ hash first second, cache.Fetches hash first →
      cache.Fetches hash second → first = second) ∧
    (∀ call found order next, cache.calls call = some found →
      cache.step (.advance call (.publish order)) = some next →
      ∃ size, next.memory =
          (cache.memory.publish found.hash size order).1 ∧
        (∀ expected, found.expectedSize = some expected → size = expected) ∧
        size ≤ cache.memory.capacity ∧
        ∀ onDisk, next.disk (itemPath found.hash) = some onDisk →
          onDisk = size) ∧
    (∀ follower found channel, cache.calls follower = some found →
      found.phase = .waiting channel → ∀ later final,
      exec step cache later = some final →
      final.calls follower = some { found with phase := .finished .ok } →
      Sometime step (SeesFile channel found.hash) cache later) := by
  obtain ⟨attended, checked⟩ := attended_and_checked run
  refine ⟨attended, ?_, ?_, ?_⟩
  · rintro hash first second ⟨firstFound, channel, here, rfl, fetching⟩
      ⟨secondFound, other, there, same, alsoFetching⟩
    have leadsFirst : cache.flights.role first =
        some (.leads firstFound.hash channel) := by
      simp [flights, here, Call.role, fetching]
    have leadsSecond : cache.flights.role second =
        some (.leads secondFound.hash other) := by
      simp [flights, there, Call.role, alsoFetching]
    rw [same] at leadsSecond
    exact attended.leader leadsFirst leadsSecond
  · intro call found order next here stepped
    obtain ⟨again, there, moved⟩ := Option.bind_eq_some_iff.mp stepped
    obtain rfl := Option.some.inj (here.symm.trans there)
    obtain ⟨phase, _, _, effect⟩ := advanced moved
    cases effect with
    | quiet idle _ _ _ _ _ => exact absurd idle (renamed_of_publish moved)
    | @publish channel size _ renamed _ memory disk =>
        obtain ⟨expected, fits, onDisk⟩ := checked call found size here
          (publishes_eq_some.mpr ⟨channel, renamed⟩)
        refine ⟨size, memory, expected, fits, fun length present => ?_⟩
        rw [disk] at present
        exact onDisk length present
  · intro follower found channel here waiting later final ran returned
    have follows : cache.Follows follower found channel :=
      ⟨found.phase, here, Or.inl waiting⟩
    exact follows.sees ran returned

/-- Two calls for one file; the second one waits for the first. -/
def sharedEvents : List Event :=
  let hash := ['a', 'b']
  [.populate 0 hash (some 4), .populate 1 hash none, .advance 0 .check,
    .advance 1 .check, .advance 0 (.enter true), .advance 1 (.enter true),
    .advance 0 (.acquire true)]

theorem populate_single_flight_shared :
    ∃ cache, exec step (new none 10) sharedEvents = some cache ∧
      cache.Fetches ['a', 'b'] 0 ∧
      ∀ other, cache.Fetches ['a', 'b'] other → other = 0 := by
  have ran : ∃ cache, exec step (new none 10) sharedEvents = some cache ∧
      cache.Fetches ['a', 'b'] 0 :=
    ⟨_, rfl, _, _, rfl, rfl, rfl⟩
  obtain ⟨cache, run, fetches⟩ := ran
  refine ⟨cache, run, fetches, ?_⟩
  intro other also
  exact (populate_single_flight run).2.1 ['a', 'b'] other 0 also fetches

end FileCache

end HfMount.Cache
