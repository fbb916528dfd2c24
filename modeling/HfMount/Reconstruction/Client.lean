import HfMount.Lib.SingleFlight
import HfMount.Lib.Transition
import HfMount.Reconstruction.Plan
import Mathlib.Data.List.MinMax

/-!
# The caching client

A call looks for the plan in the cache; on a miss it asks the server, or waits
for a call that is already asking for the same key.  The state is that of all
calls together; an event lets one call take its next step.  A future can be
dropped where it awaits: while it waits for a leader, and while it leads and
waits for the server.
-/

namespace HfMount.Reconstruction

open Transition SingleFlight

/-- `ReconCacheKey`: without a range it is the plan of the whole file. -/
abbrev ReconCacheKey (F : Type) := F × Option FileRange

structure CacheEntry (H X : Type) where
  response : Response H X
  insertedAt : Time
  lastAccessed : Time

abbrev PlanCache (F H X : Type) := List (ReconCacheKey F × CacheEntry H X)

/-- `MAX_CACHE_ENTRIES`. -/
def maxCacheEntries : Nat := 4096

variable {F H X E : Type} [DecidableEq F]

/-! ## The cache -/

namespace PlanCache

def remove (cache : PlanCache F H X) (key : ReconCacheKey F) :
    PlanCache F H X :=
  cache.filter (·.1 ≠ key)

def insert (cache : PlanCache F H X) (key : ReconCacheKey F)
    (entry : CacheEntry H X) : PlanCache F H X :=
  (key, entry) :: cache.remove key

/-- A valid entry is touched, an expired one is dropped. -/
def tryGet (cache : PlanCache F H X) (ttl : Nat) (now : Time)
    (key : ReconCacheKey F) : Option (Response H X) × PlanCache F H X :=
  match cache.find? (·.1 = key) with
  | none => (none, cache)
  | some (_, entry) =>
      if now - entry.insertedAt < ttl then
        (some entry.response, cache.insert key { entry with lastAccessed := now })
      else (none, cache.remove key)

/-- The insertion of a response.  A plan of a whole file replaces those of its
ranges; a full cache first loses all plans of ranges, and then the plan that
was not accessed for the longest time. -/
def store (cache : PlanCache F H X) (key : ReconCacheKey F)
    (response : Response H X) (now : Time) : PlanCache F H X :=
  let purged : PlanCache F H X :=
    if key.2.isNone then
      cache.filter fun cached => cached.1.1 ≠ key.1 || cached.1.2.isNone
    else cache
  let room : PlanCache F H X :=
    if maxCacheEntries ≤ purged.length then
      let plans : PlanCache F H X := purged.filter (·.1.2.isNone)
      if maxCacheEntries ≤ plans.length then
        match plans.argmin (·.2.lastAccessed) with
        | some victim => plans.remove victim.1
        | none => plans
      else plans
    else purged
  room.insert key
    { response
      insertedAt := now
      lastAccessed := now }

end PlanCache

inductive CacheResult (H X : Type) where
  | exactHit (response : Response H X)
  | fullPlan (full : Response H X) (range : FileRange)
  | miss

/-- The cache check: the plan of the range itself, else that of the file. -/
def checkCache (cache : PlanCache F H X) (ttl : Nat) (now : Time) (fileId : F)
    (bytesRange : Option FileRange) : CacheResult H X × PlanCache F H X :=
  match cache.tryGet ttl now (fileId, bytesRange) with
  | (some response, touched) => (.exactHit response, touched)
  | (none, rest) =>
      match bytesRange with
      | none => (.miss, rest)
      | some range =>
          match rest.tryGet ttl now (fileId, none) with
          | (some full, touched) => (.fullPlan full range, touched)
          | (none, rest) => (.miss, rest)

/-! ## Calls -/

/-- What the server answers, and what a call returns. -/
abbrev Answer (H X E : Type) := Except E (Option (Response H X))

/-- Where a call stands. -/
inductive Phase (H X E : Type) where
  | checking
  | missed
  | waiting (channel : Nat)
  | leading (channel : Nat)
  | fetched (channel : Nat) (result : Answer H X E)
  | stored (channel : Nat) (result : Answer H X E)
  | removed (channel : Nat) (result : Answer H X E)
  | returned (result : Answer H X E)
  | dropped

structure Call (F H X E : Type) where
  key : ReconCacheKey F
  phase : Phase H X E

structure CachedXetClient (F H X E : Type) where
  cache : PlanCache F H X
  inflight : ReconCacheKey F → Option Nat
  ttl : Nat
  calls : Nat → Option (Call F H X E)
  /-- The channels on which the leader has sent. -/
  notified : Nat → Bool
  nextChannel : Nat

inductive Event (F H X E : Type) where
  | start (call : Nat) (fileId : F) (bytesRange : Option FileRange)
  | check (call : Nat) (now : Time)
  | join (call : Nat)
  | wake (call : Nat)
  | answer (call : Nat) (result : Answer H X E)
  | store (call : Nat) (now : Time)
  | remove (call : Nat)
  | notify (call : Nat)
  | drop (call : Nat)

namespace CachedXetClient

def new (ttl : Nat) : CachedXetClient F H X E :=
  { cache := []
    inflight := fun _ => none
    ttl
    calls := fun _ => none
    notified := fun _ => false
    nextChannel := 0 }

omit [DecidableEq F] in
def setPhase (client : CachedXetClient F H X E) (call : Nat)
    (key : ReconCacheKey F) (phase : Phase H X E) : CachedXetClient F H X E :=
  { client with calls := Function.update client.calls call (some ⟨key, phase⟩) }

variable [DecidableEq H]

def step (client : CachedXetClient F H X E) :
    Event F H X E → Option (CachedXetClient F H X E)
  | .start call fileId bytesRange =>
      match client.calls call with
      | none => some (client.setPhase call (fileId, bytesRange) .checking)
      | some _ => none
  | .check call now =>
      match client.calls call with
      | some ⟨key, .checking⟩ =>
          let checked := checkCache client.cache client.ttl now key.1 key.2
          let client := { client with cache := checked.2 }
          match checked.1 with
          | .exactHit response =>
              some (client.setPhase call key (.returned (.ok (some response))))
          | .fullPlan full range =>
              some (client.setPhase call key
                (.returned (.ok (answerFullPlan full range))))
          | .miss => some (client.setPhase call key .missed)
      | _ => none
  | .join call =>
      match client.calls call with
      | some ⟨key, .missed⟩ =>
          match client.inflight key with
          | some channel => some (client.setPhase call key (.waiting channel))
          | none =>
              let channel := client.nextChannel
              let client :=
                { client with
                  inflight := Function.update client.inflight key (some channel)
                  nextChannel := channel + 1 }
              some (client.setPhase call key (.leading channel))
      | _ => none
  | .wake call =>
      match client.calls call with
      | some ⟨key, .waiting channel⟩ =>
          -- no sender of the channel goes away without sending, unless the
          -- entry that has one stays
          if client.notified channel then
            some (client.setPhase call key .checking)
          else none
      | _ => none
  | .answer call result =>
      match client.calls call with
      | some ⟨key, .leading channel⟩ =>
          some (client.setPhase call key (.fetched channel result))
      | _ => none
  | .store call now =>
      match client.calls call with
      | some ⟨key, .fetched channel result⟩ =>
          let cache :=
            match result with
            | .ok (some response) => client.cache.store key response now
            | _ => client.cache
          some (setPhase { client with cache } call key (.stored channel result))
      | _ => none
  | .remove call =>
      match client.calls call with
      | some ⟨key, .stored channel result⟩ =>
          let client :=
            { client with
              inflight := Function.update client.inflight key none }
          some (client.setPhase call key (.removed channel result))
      | _ => none
  | .notify call =>
      match client.calls call with
      | some ⟨key, .removed channel result⟩ =>
          let client :=
            { client with
              notified := Function.update client.notified channel true }
          some (client.setPhase call key (.returned result))
      | _ => none
  | .drop call =>
      match client.calls call with
      | some ⟨key, .waiting _⟩ => some (client.setPhase call key .dropped)
      | some ⟨key, .leading _⟩ => some (client.setPhase call key .dropped)
      | _ => none

end CachedXetClient

/-! ## The parts of the calls -/

omit [DecidableEq F] in
/-- The part of a call in the single flight. -/
def Call.role (call : Call F H X E) : Option (Role (ReconCacheKey F)) :=
  match call.phase with
  | .leading channel | .fetched channel _ | .stored channel _ =>
      some (.leads call.key channel)
  | .removed channel _ => some (.notifies call.key channel)
  | .waiting channel => some (.waits call.key channel)
  | _ => none

namespace CachedXetClient

/-- The client as a single flight. -/
def flights (client : CachedXetClient F H X E) :
    Flights (ReconCacheKey F) :=
  { inflight := client.inflight
    role := fun call => (client.calls call).bind Call.role
    notified := client.notified }

/-- No leader is dropped while it waits for the server. -/
def KeepsLeader (client : CachedXetClient F H X E) : Event F H X E → Prop
  | .drop call =>
      match client.calls call with
      | some ⟨_, .leading _⟩ => False
      | _ => True
  | _ => True

instance (client : CachedXetClient F H X E) (event : Event F H X E) :
    Decidable (client.KeepsLeader event) := by
  cases event <;> unfold KeepsLeader
  case drop call =>
    dsimp only
    split
    · exact isFalse id
    · exact isTrue trivial
  all_goals exact isTrue trivial

omit [DecidableEq F] in
theorem flights_setPhase (client : CachedXetClient F H X E) (call : Nat)
    (key : ReconCacheKey F) (phase : Phase H X E) :
    (client.setPhase call key phase).flights =
      { client.flights with
        role := Function.update client.flights.role call
          (Call.role ⟨key, phase⟩) } := by
  simp only [flights, setPhase]
  congr 1
  funext other
  by_cases same : other = call
  · subst same
    simp
  · simp [same]

omit [DecidableEq F] in
/-- A new phase with the same part leaves the single flight as it is. -/
theorem flights_setPhase_of_same {client : CachedXetClient F H X E}
    {call : Nat} {key : ReconCacheKey F} {phase : Phase H X E}
    (same : client.flights.role call = Call.role ⟨key, phase⟩) :
    (client.setPhase call key phase).flights = client.flights := by
  rw [flights_setPhase, ← same, Function.update_eq_self]

variable [DecidableEq H]

/-- A step of the client is a step of the single flight, or no change of
it. -/
theorem flights_step {client next : CachedXetClient F H X E}
    {event : Event F H X E} (stepped : client.step event = some next)
    (kept : client.KeepsLeader event) :
    next.flights = client.flights ∨
      SingleFlight.Step client.flights next.flights := by
  have role : ∀ {call found}, client.calls call = some found →
      client.flights.role call = Call.role found := by
    intro call found here
    simp [flights, here]
  cases event with
  | start call fileId bytesRange =>
      simp only [step] at stepped
      split at stepped <;> rename_i free
      · obtain rfl := Option.some.inj stepped
        apply Or.inl
        apply flights_setPhase_of_same
        simp [flights, free, Call.role]
      · cases stepped
  | check call now =>
      simp only [step] at stepped
      split at stepped <;> rename_i found
      · have checking := role found
        split at stepped
        all_goals
          obtain rfl := Option.some.inj stepped
          exact Or.inl (flights_setPhase_of_same checking)
      · cases stepped
  | join call =>
      simp only [step] at stepped
      split at stepped <;> rename_i found
      · have missed := role found
        split at stepped <;> rename_i registered
        · obtain rfl := Option.some.inj stepped
          rw [flights_setPhase]
          exact Or.inr (.join missed registered)
        · obtain rfl := Option.some.inj stepped
          rw [flights_setPhase]
          exact Or.inr (.lead missed registered)
      · cases stepped
  | wake call =>
      simp only [step] at stepped
      split at stepped <;> rename_i found
      · have waits := role found
        split at stepped
        · obtain rfl := Option.some.inj stepped
          rw [flights_setPhase]
          exact Or.inr (.leave waits)
        · cases stepped
      · cases stepped
  | answer call result =>
      simp only [step] at stepped
      split at stepped <;> rename_i found
      · have leads := role found
        obtain rfl := Option.some.inj stepped
        exact Or.inl (flights_setPhase_of_same leads)
      · cases stepped
  | store call now =>
      simp only [step] at stepped
      split at stepped <;> rename_i found
      · have leads := role found
        obtain rfl := Option.some.inj stepped
        apply Or.inl
        exact flights_setPhase_of_same leads
      · cases stepped
  | remove call =>
      simp only [step] at stepped
      split at stepped <;> rename_i found
      · have leads := role found
        obtain rfl := Option.some.inj stepped
        rw [flights_setPhase]
        exact Or.inr (.remove leads)
      · cases stepped
  | notify call =>
      simp only [step] at stepped
      split at stepped <;> rename_i found
      · have notifies := role found
        obtain rfl := Option.some.inj stepped
        rw [flights_setPhase]
        exact Or.inr (.notify notifies)
      · cases stepped
  | drop call =>
      simp only [step] at stepped
      split at stepped <;> rename_i found
      · have waits := role found
        obtain rfl := Option.some.inj stepped
        rw [flights_setPhase]
        exact Or.inr (.leave waits)
      · simp only [KeepsLeader, found] at kept
      · cases stepped

/-- As long as no leader is dropped while it waits for the server, every key
that is in flight has one running leader, and every waiting call has been
notified or has a running leader. -/
theorem attended_of_kept {ttl : Nat} {events : List (Event F H X E)}
    {client : CachedXetClient F H X E}
    (kept : AllSteps step KeepsLeader (new ttl) events)
    (run : exec step (new ttl) events = some client) :
    Attended client.flights := by
  have start : Attended (new ttl : CachedXetClient F H X E).flights := by
    constructor
    · intro key channel present
      cases present
    · intro call key channel leads
      cases leads
    · intro first second key channel other leads
      cases leads
    · intro call key channel waits
      cases waits
  have preserved : ∀ (client : CachedXetClient F H X E) event next,
      Attended client.flights → client.KeepsLeader event →
      client.step event = some next → Attended next.flights := by
    intro client event next attended keeps stepped
    rcases flights_step stepped keeps with same | moved
    · rw [same]
      exact attended
    · exact attended.step moved
  exact exec_invariant preserved start kept run

/-- Two calls share a request, and a third one gives up waiting. -/
def sharedRun : List (Event Nat Nat Unit Unit) :=
  [.start 0 7 none, .start 1 7 none, .start 2 7 none, .check 0 0, .check 1 0,
    .check 2 0, .join 0, .join 1, .join 2, .drop 2, .answer 0 (.error ()),
    .store 0 1, .remove 0]

theorem attended_of_kept_shared : ∃ client,
    exec step (new 60) sharedRun = some client ∧ Attended client.flights :=
  ⟨_, rfl, @attended_of_kept _ _ _ _ _ _ 60 sharedRun _ (by decide) rfl⟩

/-- A leader that is dropped leaves its key in flight: the call that comes
next waits for nobody. -/
theorem dropped_leader_strands : ¬ ∀ (ttl : Nat)
    (events : List (Event Nat Nat Unit Unit))
    (client : CachedXetClient Nat Nat Unit Unit),
    exec step (new ttl) events = some client → Attended client.flights := by
  intro claim
  have attended := claim 60
    [.start 0 7 none, .check 0 0, .join 0, .drop 0, .start 1 7 none,
      .check 1 0, .join 1] _ rfl
  obtain ⟨call, leads⟩ := @Attended.entry _ _ attended (7, none) 0 rfl
  cases call with
  | zero => cases leads
  | succ call =>
      cases call with
      | zero => cases leads
      | succ call => cases leads

end CachedXetClient

end HfMount.Reconstruction
