import HfMount.Cache.Lru
import HfMount.Lib.SingleFlight

/-!
# Populating the file cache

All calls of `populate`, `try_open` and `forget` together, with the files on
the disk.  An event lets one call take its next step; a future can be dropped
wherever it awaits, and a panic of the download ends a call in the same way.
The guard of a leader runs on every way out.
-/

namespace HfMount.Cache

open Transition SingleFlight

/-- `MAX_CONCURRENT_POPULATES`. -/
def maxConcurrentPopulates : Nat := 8

inductive Outcome where
  | ok
  | error
  | opened
  | missed
  | forgotten
  | dropped
  deriving DecidableEq

/-- Where a call stands.  From `leading` to `leaving` the call has the guard of
its hash, with the channel of the waiting calls. -/
inductive Phase where
  | checking
  | entering
  | waiting (channel : Nat)
  | woken (channel : Nat)
  | leading (channel : Nat)
  | fetching (channel : Nat)
  | downloaded (channel : Nat) (size : Nat)
  | renamed (channel : Nat) (size : Nat)
  | evicting (channel : Nat) (victims : List Hash)
  | leaving (channel : Nat) (outcome : Outcome)
  | opening
  | hit
  | forgetting (outcome : Outcome)
  | unlinking (outcome : Outcome)
  | finished (outcome : Outcome)
  deriving DecidableEq

structure Call where
  hash : Hash
  expectedSize : Option Nat
  phase : Phase
  deriving DecidableEq

structure FileCache where
  memory : Memory
  disk : ItemPath → Option Nat
  inflight : Hash → Option Nat
  permits : Nat
  calls : Nat → Option Call
  notified : Nat → Bool
  nextChannel : Nat

/-- The next step of a call, with what the environment decides in it. -/
inductive Action where
  /-- The fast path, before the download is shared. -/
  | check
  /-- Under the lock of the map; `readable` says that `try_read` got its
  lock. -/
  | enter (readable : Bool)
  | wake
  | recheck
  /-- A permit is there; `created` says that the shard could be created. -/
  | acquire (created : Bool)
  /-- The download ends, with the size of its file or with an error. -/
  | fetched (size : Option Nat)
  | rename (moved : Bool)
  | publish (order : List Entry)
  | evict
  /-- The guard is dropped. -/
  | release
  | lookup
  | openFile
  | erase
  | unlink
  | drop

inductive Event where
  | populate (call : Nat) (hash : Hash) (expectedSize : Option Nat)
  | tryOpen (call : Nat) (hash : Hash)
  | forget (call : Nat) (hash : Hash)
  | advance (call : Nat) (action : Action)

namespace FileCache

/-- A cache over what a directory has at the start. -/
def new (root : Option (List Shard)) (capacity : Nat) : FileCache :=
  { memory := .new root capacity
    disk := fun path =>
      ((placedFiles root).reverse.find? (·.1 = path)).map (·.2.len)
    inflight := fun _ => none
    permits := maxConcurrentPopulates
    calls := fun _ => none
    notified := fun _ => false
    nextChannel := 0 }

def contains (cache : FileCache) (hash : Hash) : Bool :=
  (cache.memory.state.items.lookup hash).isSome

def setCall (cache : FileCache) (call : Nat) (found : Call) (phase : Phase) :
    FileCache :=
  { cache with
    calls := Function.update cache.calls call (some { found with phase }) }

/-- A new call stands at its first step. -/
def start (cache : FileCache) (call : Nat) (hash : Hash)
    (expectedSize : Option Nat) (phase : Phase) : Option FileCache :=
  match cache.calls call with
  | none =>
      some
        { cache with
          calls := Function.update cache.calls call
            (some { hash, expectedSize, phase }) }
  | some _ => none

/-- The permit goes back when the populating part of a leader ends. -/
def leave (cache : FileCache) (call : Nat) (found : Call) (channel : Nat)
    (outcome : Outcome) : FileCache :=
  setCall { cache with permits := cache.permits + 1 } call found
    (.leaving channel outcome)

def removeFile (cache : FileCache) (hash : Hash) : FileCache :=
  { cache with disk := Function.update cache.disk (itemPath hash) none }

/-- One step of a call. -/
def advance (cache : FileCache) (call : Nat) (found : Call)
    (action : Action) : Option FileCache :=
  match found.phase, action with
  | .checking, .check =>
      if cache.contains found.hash then
        some (cache.setCall call found (.finished .ok))
      else some (cache.setCall call found .entering)
  | .entering, .enter readable =>
      if readable && cache.contains found.hash then
        some (cache.setCall call found (.finished .ok))
      else
        match cache.inflight found.hash with
        | some channel => some (cache.setCall call found (.waiting channel))
        | none =>
            some (setCall
              { cache with
                inflight := Function.update cache.inflight found.hash
                  (some cache.nextChannel)
                nextChannel := cache.nextChannel + 1 }
              call found (.leading cache.nextChannel))
  | .waiting channel, .wake =>
      if cache.notified channel then
        some (cache.setCall call found (.woken channel))
      else none
  | .woken _, .recheck =>
      if cache.contains found.hash then
        some (cache.setCall call found (.finished .ok))
      else some (cache.setCall call found (.finished .error))
  | .leading channel, .acquire created =>
      if 0 < cache.permits then
        if created then
          some (setCall { cache with permits := cache.permits - 1 } call found
            (.fetching channel))
        else some (cache.setCall call found (.leaving channel .error))
      else none
  | .fetching channel, .fetched (some size) =>
      some (cache.setCall call found (.downloaded channel size))
  | .fetching channel, .fetched none =>
      some (cache.leave call found channel .error)
  | .downloaded channel size, .rename moved =>
      if found.expectedSize.any (size != ·) then
        some (cache.leave call found channel .error)
      else if cache.memory.capacity < size then
        some (cache.leave call found channel .ok)
      else if moved then
        some (setCall
          { cache with
            disk := Function.update cache.disk (itemPath found.hash)
              (some size) }
          call found (.renamed channel size))
      else some (cache.leave call found channel .error)
  | .renamed channel size, .publish order =>
      if order.Perm (cache.memory.inserted found.hash size).items.entries then
        let published := cache.memory.publish found.hash size order
        some (setCall { cache with memory := published.1 } call found
          (.evicting channel published.2))
      else none
  | .evicting channel (victim :: victims), .evict =>
      some ((cache.removeFile victim).setCall call found
        (.evicting channel victims))
  | .evicting channel [], .evict => some (cache.leave call found channel .ok)
  | .leaving channel outcome, .release =>
      some (setCall
        { cache with
          inflight := Function.update cache.inflight found.hash none
          notified := Function.update cache.notified channel true }
        call found (.finished outcome))
  | .opening, .lookup =>
      match cache.memory.touch found.hash with
      | some memory => some (setCall { cache with memory } call found .hit)
      | none => some (cache.setCall call found (.finished .missed))
  | .hit, .openFile =>
      if (cache.disk (itemPath found.hash)).isSome then
        some (cache.setCall call found (.finished .opened))
      else some (cache.setCall call found (.forgetting .missed))
  | .forgetting outcome, .erase =>
      some (setCall
        { cache with memory := cache.memory.forgetItem found.hash }
        call found (.unlinking outcome))
  | .unlinking outcome, .unlink =>
      some ((cache.removeFile found.hash).setCall call found
        (.finished outcome))
  | .checking, .drop | .waiting _, .drop | .woken _, .drop
  | .opening, .drop | .forgetting _, .drop =>
      some (cache.setCall call found (.finished .dropped))
  | .leading channel, .drop =>
      some (cache.setCall call found (.leaving channel .dropped))
  | .fetching channel, .drop | .renamed channel _, .drop =>
      some (cache.leave call found channel .dropped)
  | _, _ => none

def step (cache : FileCache) : Event → Option FileCache
  | .populate call hash expectedSize =>
      if hash.isEmpty || expectedSize.any (cache.memory.capacity < ·) then
        cache.start call hash expectedSize (.finished .ok)
      else cache.start call hash expectedSize .checking
  | .tryOpen call hash =>
      if hash.isEmpty then cache.start call hash none (.finished .missed)
      else cache.start call hash none .opening
  | .forget call hash => cache.start call hash none (.forgetting .forgotten)
  | .advance call action =>
      (cache.calls call).bind fun found => cache.advance call found action

end FileCache

/-! ## What a step does -/

/-- The size of the file that the call has renamed and has yet to publish. -/
def Call.publishes (call : Call) : Option Nat :=
  match call.phase with
  | .renamed _ size => some size
  | _ => none

/-- The hashes whose files the call has yet to remove. -/
def Call.removes (call : Call) : List Hash :=
  match call.phase with
  | .evicting _ victims => victims
  | .unlinking _ => [call.hash]
  | _ => []

/-- A call begins in a phase that neither publishes nor removes. -/
def Phase.IsFirst : Phase → Prop
  | .checking | .opening | .forgetting _ | .finished _ => True
  | _ => False

namespace FileCache

/-- What a step of a call does to the memory and to the disk, with the phase of
the call after it. -/
inductive Effect (cache next : FileCache) (found : Call) :
    Action → Phase → Prop
  | quiet {action : Action} {phase : Phase} :
      found.publishes = none → found.removes = [] →
      Call.publishes { found with phase } = none →
      Call.removes { found with phase } = [] →
      next.memory = cache.memory → next.disk = cache.disk →
      Effect cache next found action phase
  | touch {memory : Memory} : found.phase = .opening →
      cache.memory.touch found.hash = some memory →
      next.memory = memory → next.disk = cache.disk →
      Effect cache next found .lookup .hit
  | rename {channel size : Nat} : found.phase = .downloaded channel size →
      (∀ expected, found.expectedSize = some expected → size = expected) →
      size ≤ cache.memory.capacity → next.memory = cache.memory →
      next.disk =
        Function.update cache.disk (itemPath found.hash) (some size) →
      Effect cache next found (.rename true) (.renamed channel size)
  | publish {channel size : Nat} {order : List Entry} :
      found.phase = .renamed channel size →
      order.Perm (cache.memory.inserted found.hash size).items.entries →
      next.memory = (cache.memory.publish found.hash size order).1 →
      next.disk = cache.disk →
      Effect cache next found (.publish order)
        (.evicting channel (cache.memory.publish found.hash size order).2)
  | evict {channel : Nat} {victim : Hash} {victims : List Hash} :
      found.phase = .evicting channel (victim :: victims) →
      next.memory = cache.memory →
      next.disk = Function.update cache.disk (itemPath victim) none →
      Effect cache next found .evict (.evicting channel victims)
  | abandon {channel size : Nat} : found.phase = .renamed channel size →
      next.memory = cache.memory → next.disk = cache.disk →
      Effect cache next found .drop (.leaving channel .dropped)
  | erase {outcome : Outcome} : found.phase = .forgetting outcome →
      next.memory = cache.memory.forgetItem found.hash →
      next.disk = cache.disk →
      Effect cache next found .erase (.unlinking outcome)
  | unlink {outcome : Outcome} : found.phase = .unlinking outcome →
      next.memory = cache.memory →
      next.disk = Function.update cache.disk (itemPath found.hash) none →
      Effect cache next found .unlink (.finished outcome)

/-- A step of a call changes the phase of this call, takes no notification
back, and does one of the effects. -/
structure Advanced (cache next : FileCache) (call : Nat) (found : Call)
    (action : Action) (phase : Phase) : Prop where
  calls : next.calls =
    Function.update cache.calls call (some { found with phase })
  notified : ∀ channel, cache.notified channel = true →
    next.notified channel = true
  effect : Effect cache next found action phase

theorem advanced {cache next : FileCache} {call : Nat} {found : Call}
    {action : Action} (stepped : cache.advance call found action = some next) :
    ∃ phase, Advanced cache next call found action phase := by
  have quiet : ∀ {phase : Phase} {next : FileCache},
      next.calls = Function.update cache.calls call
        (some { found with phase }) →
      next.notified = cache.notified → next.memory = cache.memory →
      next.disk = cache.disk →
      found.publishes = none → found.removes = [] →
      Call.publishes { found with phase } = none →
      Call.removes { found with phase } = [] →
      ∃ phase, Advanced cache next call found action phase := by
    intro phase next calls notified memory disk noneBefore nothing noneAfter
      nothingAfter
    refine ⟨phase, calls, ?_,
      .quiet noneBefore nothing noneAfter nothingAfter memory disk⟩
    intro channel known
    rw [notified]
    exact known
  unfold advance at stepped
  split at stepped <;> rename_i phase
  case h_8 =>
    -- `rename`
    split at stepped <;> rename_i sizes
    · obtain rfl := Option.some.inj stepped
      exact quiet rfl rfl rfl rfl (by simp [Call.publishes, phase])
        (by simp [Call.removes, phase]) rfl rfl
    split at stepped <;> rename_i large
    · obtain rfl := Option.some.inj stepped
      exact quiet rfl rfl rfl rfl (by simp [Call.publishes, phase])
        (by simp [Call.removes, phase]) rfl rfl
    split at stepped <;> rename_i moved
    · obtain rfl := Option.some.inj stepped
      subst moved
      refine ⟨_, rfl, fun _ known => known,
        .rename phase ?_ (Nat.le_of_not_lt large) rfl rfl⟩
      intro expected isExpected
      simpa [isExpected] using sizes
    · obtain rfl := Option.some.inj stepped
      exact quiet rfl rfl rfl rfl (by simp [Call.publishes, phase])
        (by simp [Call.removes, phase]) rfl rfl
  case h_9 =>
    -- `publish`
    split at stepped <;> rename_i walked
    · obtain rfl := Option.some.inj stepped
      exact ⟨_, rfl, fun _ known => known, .publish phase walked rfl rfl⟩
    · cases stepped
  case h_10 =>
    -- `evict`
    obtain rfl := Option.some.inj stepped
    exact ⟨_, rfl, fun _ known => known, .evict phase rfl rfl⟩
  case h_12 =>
    -- `release`
    rename_i channel outcome
    obtain rfl := Option.some.inj stepped
    refine ⟨_, rfl, ?_, .quiet (by simp [Call.publishes, phase])
      (by simp [Call.removes, phase]) rfl rfl rfl rfl⟩
    intro other known
    by_cases same : other = channel
    · rw [same]
      exact Function.update_self _ _ _
    · exact (Function.update_of_ne same _ _).trans known
  case h_13 =>
    -- `lookup`
    split at stepped <;> rename_i touched
    · obtain rfl := Option.some.inj stepped
      exact ⟨_, rfl, fun _ known => known, .touch phase touched rfl rfl⟩
    · obtain rfl := Option.some.inj stepped
      exact quiet rfl rfl rfl rfl (by simp [Call.publishes, phase])
        (by simp [Call.removes, phase]) rfl rfl
  case h_15 =>
    -- `erase`
    obtain rfl := Option.some.inj stepped
    exact ⟨_, rfl, fun _ known => known, .erase phase rfl rfl⟩
  case h_16 =>
    -- `unlink`
    obtain rfl := Option.some.inj stepped
    exact ⟨_, rfl, fun _ known => known, .unlink phase rfl rfl⟩
  case h_24 =>
    -- `drop` of a call that has renamed its file
    obtain rfl := Option.some.inj stepped
    exact ⟨_, rfl, fun _ known => known, .abandon phase rfl rfl⟩
  all_goals
    repeat' split at stepped
    all_goals first
      | obtain rfl := Option.some.inj stepped
        exact quiet rfl rfl rfl rfl (by simp [Call.publishes, phase])
          (by simp [Call.removes, phase]) rfl rfl
      | cases stepped

/-- A new call begins, or a call takes its next step. -/
theorem step_cases {cache next : FileCache} {event : Event}
    (stepped : cache.step event = some next) :
    (∃ call new, cache.calls call = none ∧ Phase.IsFirst new.phase ∧
      next =
        { cache with
          calls := Function.update cache.calls call (some new) }) ∨
    ∃ call found action, event = .advance call action ∧
      cache.calls call = some found ∧
      cache.advance call found action = some next := by
  have begins : ∀ {call : Nat} {hash : Hash} {expectedSize : Option Nat}
      {phase : Phase}, cache.start call hash expectedSize phase = some next →
      Phase.IsFirst phase → ∃ call new, cache.calls call = none ∧
        Phase.IsFirst new.phase ∧
        next =
          { cache with
            calls := Function.update cache.calls call (some new) } := by
    intro call hash expectedSize phase started first
    unfold start at started
    split at started <;> rename_i free
    · obtain rfl := Option.some.inj started
      exact ⟨call, _, free, first, rfl⟩
    · cases started
  cases event with
  | populate call hash expectedSize =>
      simp only [step] at stepped
      split at stepped
      · exact Or.inl (begins stepped trivial)
      · exact Or.inl (begins stepped trivial)
  | tryOpen call hash =>
      simp only [step] at stepped
      split at stepped
      · exact Or.inl (begins stepped trivial)
      · exact Or.inl (begins stepped trivial)
  | forget call hash => exact Or.inl (begins stepped trivial)
  | advance call action =>
      obtain ⟨found, here, moved⟩ := Option.bind_eq_some_iff.mp stepped
      exact Or.inr ⟨call, found, action, rfl, here, moved⟩

theorem publishes_of_isFirst {new : Call} (first : Phase.IsFirst new.phase) :
    new.publishes = none := by
  obtain ⟨hash, expectedSize, phase⟩ := new
  cases phase <;> simp [Phase.IsFirst, Call.publishes] at first ⊢

theorem removes_of_isFirst {new : Call} (first : Phase.IsFirst new.phase) :
    new.removes = [] := by
  obtain ⟨hash, expectedSize, phase⟩ := new
  cases phase <;> simp [Phase.IsFirst, Call.removes] at first ⊢

end FileCache

end HfMount.Cache
