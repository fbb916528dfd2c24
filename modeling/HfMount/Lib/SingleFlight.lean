import Mathlib.Logic.Function.Basic
import Mathlib.Logic.Relation

/-!
# Single flight

Callers that ask for the same key share one request.  The first one registers
the key with a fresh channel and leads; the others wait on that channel.  The
leader removes the key and then notifies the channel.

A leader that goes away without these two steps is not a step of this protocol:
`Attended` says what holds as long as no leader does.
-/

namespace HfMount.SingleFlight

/-- The part that a running call has in the protocol. -/
inductive Role (Key : Type) where
  | leads (key : Key) (channel : Nat)
  /-- The key is removed, the channel not yet notified. -/
  | notifies (key : Key) (channel : Nat)
  | waits (key : Key) (channel : Nat)

structure Flights (Key : Type) where
  inflight : Key → Option Nat
  role : Nat → Option (Role Key)
  notified : Nat → Bool

variable {Key : Type}

inductive Step [DecidableEq Key] : Flights Key → Flights Key → Prop
  | lead {flights : Flights Key} {call channel : Nat} {key : Key} :
      flights.role call = none → flights.inflight key = none →
      Step flights
        { flights with
          inflight := Function.update flights.inflight key (some channel)
          role := Function.update flights.role call
            (some (.leads key channel)) }
  | join {flights : Flights Key} {call channel : Nat} {key : Key} :
      flights.role call = none → flights.inflight key = some channel →
      Step flights
        { flights with
          role := Function.update flights.role call
            (some (.waits key channel)) }
  | remove {flights : Flights Key} {call channel : Nat} {key : Key} :
      flights.role call = some (.leads key channel) →
      Step flights
        { flights with
          inflight := Function.update flights.inflight key none
          role := Function.update flights.role call
            (some (.notifies key channel)) }
  | notify {flights : Flights Key} {call channel : Nat} {key : Key} :
      flights.role call = some (.notifies key channel) →
      Step flights
        { flights with
          role := Function.update flights.role call none
          notified := Function.update flights.notified channel true }
  /-- A waiter has been woken, or has gone away. -/
  | leave {flights : Flights Key} {call channel : Nat} {key : Key} :
      flights.role call = some (.waits key channel) →
      Step flights
        { flights with role := Function.update flights.role call none }

/-- Every registered key has its one leader, and every waiter has been
notified or has a leader that will do it. -/
structure Attended (flights : Flights Key) : Prop where
  entry : ∀ {key channel}, flights.inflight key = some channel →
    ∃ call, flights.role call = some (.leads key channel)
  registered : ∀ {call key channel},
    flights.role call = some (.leads key channel) →
    flights.inflight key = some channel
  leader : ∀ {first second key channel other},
    flights.role first = some (.leads key channel) →
    flights.role second = some (.leads key other) → first = second
  waiter : ∀ {call key channel},
    flights.role call = some (.waits key channel) →
    flights.notified channel = true ∨ ∃ leader,
      flights.role leader = some (.leads key channel) ∨
        flights.role leader = some (.notifies key channel)

/-- A call that has changed its part has the new one, and the others keep
theirs. -/
theorem update_eq_some {role : Nat → Option (Role Key)} {call other : Nat}
    {new : Option (Role Key)} {part : Role Key} :
    Function.update role call new other = some part ↔
      other = call ∧ new = some part ∨
        other ≠ call ∧ role other = some part := by
  by_cases same : other = call
  · subst same
    simp
  · simp [same]

/-- Calls keep every part but the old part of the one that changes. -/
theorem update_of_ne {role : Nat → Option (Role Key)} {call other : Nat}
    {new : Option (Role Key)} {part : Role Key}
    (different : role call ≠ some part) (has : role other = some part) :
    Function.update role call new other = some part := by
  apply update_eq_some.mpr
  refine Or.inr ⟨?_, has⟩
  rintro rfl
  exact different has

/-- A change of a part that is no leader's, before or after. -/
theorem Attended.update_role {flights : Flights Key}
    (attended : Attended flights) {call : Nat} {new : Option (Role Key)}
    {notified : Nat → Bool}
    (notLed : ∀ key channel, flights.role call ≠ some (.leads key channel))
    (notLeads : ∀ key channel, new ≠ some (.leads key channel))
    (joined : ∀ key channel, new = some (.waits key channel) →
      flights.inflight key = some channel)
    (grows : ∀ channel, flights.notified channel = true →
      notified channel = true)
    (told : ∀ key channel, flights.role call = some (.notifies key channel) →
      notified channel = true) :
    Attended
      { flights with
        role := Function.update flights.role call new
        notified } := by
  constructor
  · intro key channel present
    obtain ⟨leader, leads⟩ := attended.entry present
    exact ⟨leader, update_of_ne (notLed _ _) leads⟩
  · intro leader key channel leads
    rcases update_eq_some.mp leads with ⟨_, here⟩ | ⟨_, old⟩
    · exact absurd here (notLeads _ _)
    · exact attended.registered old
  · intro first second key left right leadsFirst leadsSecond
    rcases update_eq_some.mp leadsFirst with ⟨_, here⟩ | ⟨_, old⟩
    · exact absurd here (notLeads _ _)
    rcases update_eq_some.mp leadsSecond with ⟨_, here⟩ | ⟨_, also⟩
    · exact absurd here (notLeads _ _)
    exact attended.leader old also
  · intro waiter key channel waits
    rcases update_eq_some.mp waits with ⟨_, here⟩ | ⟨_, old⟩
    · obtain ⟨leader, leads⟩ := attended.entry (joined key channel here)
      exact Or.inr ⟨leader, Or.inl (update_of_ne (notLed _ _) leads)⟩
    · rcases attended.waiter old with known | ⟨leader, leads | notifies⟩
      · exact Or.inl (grows _ known)
      · exact Or.inr ⟨leader, Or.inl (update_of_ne (notLed _ _) leads)⟩
      · by_cases here : flights.role call = some (.notifies key channel)
        · exact Or.inl (told key channel here)
        · exact Or.inr ⟨leader, Or.inr (update_of_ne here notifies)⟩

variable [DecidableEq Key]

theorem Attended.lead {flights : Flights Key} (attended : Attended flights)
    {call channel : Nat} {key : Key} (free : flights.role call = none)
    (absent : flights.inflight key = none) :
    Attended
      { flights with
        inflight := Function.update flights.inflight key (some channel)
        role := Function.update flights.role call
          (some (.leads key channel)) } := by
  have notFree : ∀ part, flights.role call ≠ some part := by
    intro part has
    rw [free] at has
    cases has
  have elsewhere : ∀ {other otherChannel leader},
      flights.role leader = some (.leads other otherChannel) →
      other ≠ key := by
    rintro other otherChannel leader leads rfl
    have present := attended.registered leads
    rw [absent] at present
    cases present
  constructor
  · intro other otherChannel present
    dsimp only at present
    by_cases same : other = key
    · subst same
      rw [Function.update_self] at present
      obtain rfl := Option.some.inj present
      exact ⟨call, Function.update_self _ _ _⟩
    · rw [Function.update_of_ne same] at present
      obtain ⟨leader, leads⟩ := attended.entry present
      exact ⟨leader, update_of_ne (notFree _) leads⟩
  · intro leader other otherChannel leads
    dsimp only
    rcases update_eq_some.mp leads with ⟨_, new⟩ | ⟨_, old⟩
    · obtain ⟨rfl, rfl⟩ := Role.leads.inj (Option.some.inj new)
      exact Function.update_self _ _ _
    · rw [Function.update_of_ne (elsewhere old)]
      exact attended.registered old
  · intro first second other left right leadsFirst leadsSecond
    rcases update_eq_some.mp leadsFirst with ⟨here, new⟩ | ⟨_, old⟩
    · obtain ⟨rfl, _⟩ := Role.leads.inj (Option.some.inj new)
      rcases update_eq_some.mp leadsSecond with ⟨there, _⟩ | ⟨_, also⟩
      · exact here.trans there.symm
      · exact absurd rfl (elsewhere also)
    · rcases update_eq_some.mp leadsSecond with ⟨_, new⟩ | ⟨_, also⟩
      · obtain ⟨rfl, _⟩ := Role.leads.inj (Option.some.inj new)
        exact absurd rfl (elsewhere old)
      · exact attended.leader old also
  · intro waiter other otherChannel waits
    rcases update_eq_some.mp waits with ⟨_, new⟩ | ⟨_, old⟩
    · cases new
    · refine (attended.waiter old).imp_right ?_
      rintro ⟨leader, leads | notifies⟩
      · exact ⟨leader, Or.inl (update_of_ne (notFree _) leads)⟩
      · exact ⟨leader, Or.inr (update_of_ne (notFree _) notifies)⟩

theorem Attended.remove {flights : Flights Key} (attended : Attended flights)
    {call channel : Nat} {key : Key}
    (had : flights.role call = some (.leads key channel)) :
    Attended
      { flights with
        inflight := Function.update flights.inflight key none
        role := Function.update flights.role call
          (some (.notifies key channel)) } := by
  constructor
  · intro other otherChannel registered
    dsimp only at registered
    have different : other ≠ key := by
      rintro rfl
      rw [Function.update_self] at registered
      cases registered
    rw [Function.update_of_ne different] at registered
    obtain ⟨leader, leads⟩ := attended.entry registered
    refine ⟨leader, update_of_ne ?_ leads⟩
    rw [had]
    intro same
    exact different (Role.leads.inj (Option.some.inj same)).1.symm
  · intro leader other otherChannel leads
    dsimp only
    rcases update_eq_some.mp leads with ⟨_, new⟩ | ⟨distinct, old⟩
    · cases new
    · have different : other ≠ key := by
        rintro rfl
        exact distinct (attended.leader old had)
      rw [Function.update_of_ne different]
      exact attended.registered old
  · intro first second other left right leadsFirst leadsSecond
    rcases update_eq_some.mp leadsFirst with ⟨_, new⟩ | ⟨_, old⟩
    · cases new
    rcases update_eq_some.mp leadsSecond with ⟨_, new⟩ | ⟨_, also⟩
    · cases new
    exact attended.leader old also
  · intro waiter other otherChannel waits
    rcases update_eq_some.mp waits with ⟨_, new⟩ | ⟨_, old⟩
    · cases new
    refine (attended.waiter old).imp_right ?_
    rintro ⟨leader, leads | notifies⟩
    · by_cases here : leader = call
      · subst here
        obtain ⟨rfl, rfl⟩ :=
          Role.leads.inj (Option.some.inj (had.symm.trans leads))
        exact ⟨leader, Or.inr (Function.update_self _ _ _)⟩
      · exact ⟨leader, Or.inl (update_eq_some.mpr (Or.inr ⟨here, leads⟩))⟩
    · refine ⟨leader, Or.inr (update_of_ne ?_ notifies)⟩
      rw [had]
      intro same
      cases same

theorem Attended.step {flights next : Flights Key}
    (attended : Attended flights) (step : Step flights next) :
    Attended next := by
  cases step with
  | lead free absent => exact attended.lead free absent
  | join free present =>
      apply attended.update_role
      · simp [free]
      · simp
      · intro other otherChannel new
        obtain ⟨rfl, rfl⟩ := Role.waits.inj (Option.some.inj new)
        exact present
      · exact fun _ known => known
      · simp [free]
  | remove had => exact attended.remove had
  | @notify call channel key had =>
      apply attended.update_role
      · simp [had]
      · simp
      · simp
      · intro other known
        by_cases here : other = channel
        · rw [here, Function.update_self]
        · rw [Function.update_of_ne here, known]
      · intro other otherChannel notifies
        obtain ⟨_, rfl⟩ :=
          Role.notifies.inj (Option.some.inj (had.symm.trans notifies))
        exact Function.update_self _ _ _
  | leave had =>
      apply attended.update_role
      · simp [had]
      · simp
      · simp
      · exact fun _ known => known
      · simp [had]

end HfMount.SingleFlight
