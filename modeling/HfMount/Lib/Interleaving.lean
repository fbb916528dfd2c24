import HfMount.Lib.Transition
import Mathlib.Logic.Function.Basic

/-!
# Interleaved programs and rely-guarantee reasoning

A program is a sequence of atomic steps over a shared state; the label of a
step names its place in the source.  A pool runs any number of calls, each with
its own program, and the scheduler interleaves their steps freely.

`Safe` is the proof obligation of one program on its own: between two of its
steps the others may do whatever the rely relation allows, and each of its own
steps keeps the invariant and stays within the guarantee.  `Sound` follows for
every pool that a run reaches.
-/

namespace HfMount.Interleaving

open Transition

/-- `action` is partial: a step that waits is not enabled until it can go. -/
inductive Program (Label Choice State : Type) (α : Type) where
  | done (value : α)
  | step (label : Label) (action : Choice → State → Option State)
      (next : Choice → State → Program Label Choice State α)

namespace Program

variable {Label Choice State α β : Type}

def bind : Program Label Choice State α →
    (α → Program Label Choice State β) → Program Label Choice State β
  | done value, continuation => continuation value
  | step label action next, continuation =>
      step label action fun choice state =>
        (next choice state).bind continuation

instance : Monad (Program Label Choice State) where
  pure := done
  bind := bind

/-- The step that the program makes next. -/
def label? : Program Label Choice State α → Option Label
  | done _ => none
  | step label _ _ => some label

@[simp] theorem pure_eq (value : α) :
    (pure value : Program Label Choice State α) = done value := rfl

@[simp] theorem bind_eq (program : Program Label Choice State α)
    (continuation : α → Program Label Choice State β) :
    (program >>= continuation) = program.bind continuation := rfl

@[simp] theorem done_bind (value : α)
    (continuation : α → Program Label Choice State β) :
    (done value).bind continuation = continuation value := rfl

theorem bind_assoc {γ : Type} (program : Program Label Choice State α)
    (first : α → Program Label Choice State β)
    (second : β → Program Label Choice State γ) :
    (program.bind first).bind second =
      program.bind fun value => (first value).bind second := by
  induction program with
  | done value => rfl
  | step label action next ih =>
      refine congrArg (step label action) ?_
      funext choice state
      exact ih choice state

theorem bind_done (program : Program Label Choice State α) :
    program.bind done = program := by
  induction program with
  | done value => rfl
  | step label action next ih =>
      refine congrArg (step label action) ?_
      funext choice state
      exact ih choice state

/-- One step: it waits until the state is ready, and the environment makes the
choice that `action` leaves open. -/
def perform (label : Label) (ready : State → Bool)
    (action : Choice → State → State × α) : Program Label Choice State α :=
  step label
    (fun choice state =>
      if ready state then some (action choice state).1 else none)
    fun choice state => done (action choice state).2

/-- One step that only reads. -/
def read (label : Label) (view : State → α) : Program Label Choice State α :=
  perform label (fun _ => true) fun _ state => (state, view state)

/-- One step that only writes. -/
def modify (label : Label) (action : State → State) :
    Program Label Choice State Unit :=
  perform label (fun _ => true) fun _ state => (action state, ())

end Program

/-! ## Pools of programs -/

structure Pool (Label Choice State Call Reply : Type) where
  state : State
  /-- The calls made so far; a finished one keeps its reply. -/
  threads : Nat → Option (Call × Program Label Choice State Reply)

/-- What the invariants of a pool speak about. -/
structure View (Label State : Type) where
  state : State
  point : Nat → Option Label

/-- The thread has changed the state and stands before `label`. -/
def View.advance {Label State : Type} (view : View Label State)
    (thread : Nat) (state : State) (label : Option Label) :
    View Label State :=
  { state, point := Function.update view.point thread label }

namespace View

variable {Label State : Type} {view : View Label State} {thread : Nat}
  {state : State} {label : Label} {next : Option Label}
  {holds : Label → Prop}

/-- Some thread stands before a step with the property. -/
def Somewhere (view : View Label State) (holds : Label → Prop) : Prop :=
  ∃ thread label, view.point thread = some label ∧ holds label

@[simp] theorem point_advance_self :
    (view.advance thread state next).point thread = next :=
  Function.update_self _ _ _

theorem point_advance_of_ne {other : Nat} (different : other ≠ thread) :
    (view.advance thread state next).point other = view.point other :=
  Function.update_of_ne different _ _

theorem somewhere_advance_self (here : next = some label)
    (property : holds label) :
    (view.advance thread state next).Somewhere holds :=
  ⟨thread, label, point_advance_self.trans here, property⟩

/-- The thread that moves hands its property on, if it is the one that has
it. -/
theorem Somewhere.advance (somewhere : view.Somewhere holds)
    (point : view.point thread = some label)
    (keeps : holds label → ∃ later, next = some later ∧ holds later) :
    (view.advance thread state next).Somewhere holds := by
  obtain ⟨other, otherLabel, otherPoint, property⟩ := somewhere
  by_cases same : other = thread
  · subst same
    obtain rfl : otherLabel = label :=
      Option.some.inj (otherPoint.symm.trans point)
    obtain ⟨later, here, property⟩ := keeps property
    exact somewhere_advance_self here property
  · exact ⟨other, otherLabel, (point_advance_of_ne same).trans otherPoint,
      property⟩

/-- A thread that starts takes no property away. -/
theorem Somewhere.start (somewhere : view.Somewhere holds)
    (idle : view.point thread = none) :
    (view.advance thread state next).Somewhere holds := by
  obtain ⟨other, label, point, property⟩ := somewhere
  have different : other ≠ thread := by
    rintro rfl
    rw [idle] at point
    cases point
  exact ⟨other, label, (point_advance_of_ne different).trans point, property⟩

end View

inductive Event (Choice Call Background : Type) where
  | start (thread : Nat) (call : Call)
  | run (thread : Nat) (choice : Choice)
  | background (work : Background)
  deriving DecidableEq

/-- The thread whose call starts or goes on. -/
def Event.thread {Choice Call Background : Type} :
    Event Choice Call Background → Option Nat
  | .start thread _ | .run thread _ => some thread
  | .background _ => none

/-- The programs of the calls and the work that runs beside them. -/
structure System (Label Choice State Call Reply Background : Type) where
  program : Nat → Call → Program Label Choice State Reply
  background : Background → State → Option State

variable {Label Choice State Call Reply Background : Type}

namespace Pool

variable (pool : Pool Label Choice State Call Reply)

def view : View Label State :=
  { state := pool.state
    point := fun thread => (pool.threads thread).bind (·.2.label?) }

def initial (state : State) : Pool Label Choice State Call Reply :=
  { state, threads := fun _ => none }

/-- The reply of a call that has returned. -/
def reply (thread : Nat) : Option (Call × Reply) :=
  match pool.threads thread with
  | some (call, .done value) => some (call, value)
  | _ => none

end Pool

namespace System

variable (system : System Label Choice State Call Reply Background)

def step (pool : Pool Label Choice State Call Reply) :
    Event Choice Call Background →
      Option (Pool Label Choice State Call Reply)
  | .start thread call =>
      match pool.threads thread with
      | some _ => none
      | none => some
          { pool with
            threads := Function.update pool.threads thread
              (some (call, system.program thread call)) }
  | .run thread choice =>
      match pool.threads thread with
      | some (call, .step _ action next) =>
          match action choice pool.state with
          | some state => some
              { state
                threads := Function.update pool.threads thread
                  (some (call, next choice pool.state)) }
          | none => none
      | _ => none
  | .background work =>
      match system.background work pool.state with
      | some state => some { pool with state }
      | none => none

end System

/-! ## Rely and guarantee -/

/-- What the programs of a system promise each other.  `fits` restricts the
runs that the promise is about. -/
structure Protocol (Label State : Type) where
  invariant : View Label State → Prop
  rely : Nat → View Label State → View Label State → Prop
  guarantee : Nat → Label → View Label State → View Label State → Prop
  fits : Nat → Label → View Label State → Prop
  rely_refl : ∀ thread view, rely thread view view
  rely_trans : ∀ thread first second third,
    rely thread first second → rely thread second third →
      rely thread first third
  rely_of_guarantee : ∀ thread other label view after, other ≠ thread →
    invariant view → guarantee thread label view after →
      rely other view after

variable {α β : Type}

/-- Every step that the program can still make keeps the invariant and stays
within the guarantee, whatever the other threads do in between. -/
def Safe (protocol : Protocol Label State) (thread : Nat)
    (post : α → View Label State → Prop) :
    Program Label Choice State α → View Label State → Prop
  | .done value, view =>
      ∀ now, protocol.rely thread view now → protocol.invariant now →
        post value now
  | .step label action next, view =>
      ∀ now, protocol.rely thread view now → protocol.invariant now →
        now.point thread = some label → protocol.fits thread label now →
        ∀ choice state, action choice now.state = some state →
          let after := now.advance thread state (next choice now.state).label?
          protocol.invariant after ∧
            protocol.guarantee thread label now after ∧
            Safe protocol thread post (next choice now.state) after

namespace Safe

variable {protocol : Protocol Label State} {thread : Nat}
  {post : α → View Label State → Prop}

theorem of_rely {program : Program Label Choice State α}
    {view now : View Label State}
    (safe : Safe protocol thread post program view)
    (rely : protocol.rely thread view now) :
    Safe protocol thread post program now := by
  cases program with
  | done value =>
      intro later relyLater
      exact safe later (protocol.rely_trans _ _ _ _ rely relyLater)
  | step label action next =>
      intro later relyLater
      exact safe later (protocol.rely_trans _ _ _ _ rely relyLater)

theorem weaken {program : Program Label Choice State α}
    {view : View Label State} {weaker : α → View Label State → Prop}
    (safe : Safe protocol thread post program view)
    (implies : ∀ value now, post value now → weaker value now) :
    Safe protocol thread weaker program view := by
  induction program generalizing view with
  | done value =>
      exact fun now rely invariant => implies value now (safe now rely invariant)
  | step label action next ih =>
      intro now rely invariant point fits choice state acted
      obtain ⟨kept, guarantee, later⟩ :=
        safe now rely invariant point fits choice state acted
      exact ⟨kept, guarantee, ih choice now.state later⟩

theorem done {value : α} {view : View Label State}
    (holds : ∀ now, protocol.rely thread view now →
      protocol.invariant now → post value now) :
    Safe protocol thread post
      (.done value : Program Label Choice State α) view := holds

/-- One step and what follows it. -/
theorem perform_bind {label : Label} {ready : State → Bool}
    {action : Choice → State → State × β}
    {continuation : β → Program Label Choice State α}
    {view : View Label State}
    (holds : ∀ now, protocol.rely thread view now →
      protocol.invariant now → now.point thread = some label →
      protocol.fits thread label now → ready now.state = true →
      ∀ choice,
      let after := now.advance thread (action choice now.state).1
        (continuation (action choice now.state).2).label?
      protocol.invariant after ∧ protocol.guarantee thread label now after ∧
        Safe protocol thread post
          (continuation (action choice now.state).2) after) :
    Safe protocol thread post
      ((Program.perform label ready action).bind continuation) view := by
  intro now rely invariant point fits choice state acted
  change (if ready now.state then some (action choice now.state).1 else none) =
    some state at acted
  split at acted
  · rename_i isReady
    obtain rfl := Option.some.inj acted
    exact holds now rely invariant point fits isReady choice
  · cases acted

/-- A step that only reads. -/
theorem read_bind {label : Label} {look : State → β}
    {continuation : β → Program Label Choice State α}
    {view : View Label State}
    (holds : ∀ now, protocol.rely thread view now →
      protocol.invariant now → now.point thread = some label →
      protocol.fits thread label now →
      let after := now.advance thread now.state
        (continuation (look now.state)).label?
      protocol.invariant after ∧ protocol.guarantee thread label now after ∧
        Safe protocol thread post (continuation (look now.state)) after) :
    Safe protocol thread post
      ((Program.read label look).bind continuation) view :=
  perform_bind fun now rely invariant point fits _ _ =>
    holds now rely invariant point fits

/-- A step that only writes. -/
theorem modify_bind {label : Label} {action : State → State}
    {continuation : Unit → Program Label Choice State α}
    {view : View Label State}
    (holds : ∀ now, protocol.rely thread view now →
      protocol.invariant now → now.point thread = some label →
      protocol.fits thread label now →
      let after := now.advance thread (action now.state)
        (continuation ()).label?
      protocol.invariant after ∧ protocol.guarantee thread label now after ∧
        Safe protocol thread post (continuation ()) after) :
    Safe protocol thread post
      ((Program.modify label action).bind continuation) view :=
  perform_bind fun now rely invariant point fits _ _ =>
    holds now rely invariant point fits

end Safe

/-! ## Runs -/

/-- Every call and all background work keeps the promises of the protocol. -/
structure Certified (system : System Label Choice State Call Reply Background)
    (protocol : Protocol Label State)
    (post : Nat → Call → Reply → View Label State → Prop) : Prop where
  call : ∀ view thread call, protocol.invariant view →
    view.point thread = none →
      let after := view.advance thread view.state
        (system.program thread call).label?
      protocol.invariant after ∧
        (∀ other, other ≠ thread → protocol.rely other view after) ∧
        Safe protocol thread (post thread call) (system.program thread call)
          after
  background : ∀ view work state, protocol.invariant view →
    system.background work view.state = some state →
      protocol.invariant { view with state } ∧
        ∀ thread, protocol.rely thread view { view with state }

namespace Pool

/-- The invariant holds, and every call is safe from here on. -/
def Sound (protocol : Protocol Label State)
    (post : Nat → Call → Reply → View Label State → Prop)
    (pool : Pool Label Choice State Call Reply) : Prop :=
  protocol.invariant pool.view ∧
    ∀ thread call program, pool.threads thread = some (call, program) →
      Safe protocol thread (post thread call) program pool.view

/-- The step that the event makes fits the protocol. -/
def Fits (protocol : Protocol Label State)
    (pool : Pool Label Choice State Call Reply) :
    Event Choice Call Background → Prop
  | .run thread _ => ∀ label ∈ pool.view.point thread,
      protocol.fits thread label pool.view
  | _ => True

theorem view_update (pool : Pool Label Choice State Call Reply)
    (thread : Nat) (state : State) (call : Call)
    (program : Program Label Choice State Reply) :
    view { state
           threads := Function.update pool.threads thread
            (some (call, program)) } =
      pool.view.advance thread state program.label? := by
  refine congrArg (View.mk state) (funext fun other => ?_)
  by_cases same : other = thread
  · subst same
    simp
  · simp [view, same]

end Pool

section Runs

variable {system : System Label Choice State Call Reply Background}
  {protocol : Protocol Label State}
  {post : Nat → Call → Reply → View Label State → Prop}

/-- What a step of a thread does to the pool. -/
theorem System.run_inv {pool next : Pool Label Choice State Call Reply}
    {thread : Nat} {choice : Choice}
    (moved : system.step pool (.run thread choice) = some next) :
    ∃ call label action rest state,
      pool.threads thread = some (call, .step label action rest) ∧
        action choice pool.state = some state ∧
        next =
          { state
            threads := Function.update pool.threads thread
              (some (call, rest choice pool.state)) } := by
  rw [System.step] at moved
  split at moved
  · rename_i call label action rest running
    split at moved
    · rename_i state acted
      exact ⟨call, label, action, rest, state, running, acted,
        (Option.some.inj moved).symm⟩
    · cases moved
  · cases moved

theorem System.start_inv {pool next : Pool Label Choice State Call Reply}
    {thread : Nat} {call : Call}
    (moved : system.step pool (.start thread call) = some next) :
    pool.threads thread = none ∧
      next =
        { pool with
          threads := Function.update pool.threads thread
            (some (call, system.program thread call)) } := by
  rw [System.step] at moved
  split at moved
  · cases moved
  · rename_i fresh
    exact ⟨fresh, (Option.some.inj moved).symm⟩

theorem System.background_inv
    {pool next : Pool Label Choice State Call Reply} {work : Background}
    (moved : system.step pool (.background work) = some next) :
    ∃ state, system.background work pool.state = some state ∧
      next = { pool with state } := by
  rw [System.step] at moved
  split at moved
  · rename_i state worked
    exact ⟨state, worked, (Option.some.inj moved).symm⟩
  · cases moved

/-- The other threads stay safe when one thread is replaced. -/
theorem Pool.Sound.replace {pool : Pool Label Choice State Call Reply}
    (sound : pool.Sound protocol post) {thread : Nat} {state : State}
    {call : Call} {program : Program Label Choice State Reply}
    (invariant : protocol.invariant
      (pool.view.advance thread state program.label?))
    (rely : ∀ other, other ≠ thread → protocol.rely other pool.view
      (pool.view.advance thread state program.label?))
    (safe : Safe protocol thread (post thread call) program
      (pool.view.advance thread state program.label?)) :
    Pool.Sound protocol post
      { state
        threads := Function.update pool.threads thread
          (some (call, program)) } := by
  constructor
  · rw [Pool.view_update]
    exact invariant
  · intro other otherCall otherProgram running
    rw [Pool.view_update]
    by_cases same : other = thread
    · subst same
      obtain ⟨rfl, rfl⟩ : call = otherCall ∧ program = otherProgram := by
        simpa using running
      exact safe
    · have before : pool.threads other = some (otherCall, otherProgram) := by
        simpa [same] using running
      exact (sound.2 other otherCall otherProgram before).of_rely
        (rely other same)

/-- What one step of a sound pool promises, and that the pool stays sound. -/
theorem Pool.Sound.run_step {pool next : Pool Label Choice State Call Reply}
    (sound : pool.Sound protocol post) {thread : Nat} {choice : Choice}
    (fits : pool.Fits protocol
      (.run thread choice : Event Choice Call Background))
    (moved : system.step pool (.run thread choice) = some next) :
    next.Sound protocol post ∧
      ∃ label, pool.view.point thread = some label ∧
        protocol.guarantee thread label pool.view next.view := by
  obtain ⟨call, label, action, rest, state, running, acted, rfl⟩ :=
    System.run_inv moved
  have point : pool.view.point thread = some label := by
    simp [Pool.view, running, Program.label?]
  obtain ⟨invariant, guarantee, safe⟩ :=
    sound.2 thread call _ running pool.view
      (protocol.rely_refl _ _) sound.1 point
      (fits label point) choice state acted
  refine ⟨sound.replace invariant (fun other different =>
    protocol.rely_of_guarantee thread other label _ _ different sound.1
      guarantee) safe, label, point, ?_⟩
  rw [Pool.view_update]
  exact guarantee

theorem Pool.Sound.step (certified : Certified system protocol post)
    {pool next : Pool Label Choice State Call Reply}
    {event : Event Choice Call Background}
    (sound : pool.Sound protocol post) (fits : pool.Fits protocol event)
    (moved : system.step pool event = some next) :
    next.Sound protocol post := by
  cases event with
  | start thread call =>
      obtain ⟨fresh, rfl⟩ := System.start_inv moved
      have point : pool.view.point thread = none := by
        simp [Pool.view, fresh]
      obtain ⟨invariant, rely, safe⟩ :=
        certified.call pool.view thread call sound.1 point
      exact sound.replace invariant rely safe
  | run thread choice => exact (sound.run_step fits moved).1
  | background work =>
      obtain ⟨state, worked, rfl⟩ := System.background_inv moved
      obtain ⟨invariant, rely⟩ :=
        certified.background pool.view work state sound.1 worked
      exact ⟨invariant, fun thread call program running =>
        (sound.2 thread call program running).of_rely (rely thread)⟩

/-- Every run of fitting steps ends in a sound pool. -/
theorem Pool.Sound.exec (certified : Certified system protocol post)
    {pool final : Pool Label Choice State Call Reply}
    {events : List (Event Choice Call Background)}
    (sound : pool.Sound protocol post)
    (fits : AllSteps system.step (Pool.Fits protocol) pool events)
    (run : exec system.step pool events = some final) :
    final.Sound protocol post :=
  exec_invariant
    (fun _ _ _ holds fitsStep moved => holds.step certified fitsStep moved)
    sound fits run

/-- What a step does, the threads that do not make it can rely on. -/
theorem Pool.Sound.rely (certified : Certified system protocol post)
    {pool next : Pool Label Choice State Call Reply}
    {event : Event Choice Call Background}
    (sound : pool.Sound protocol post) (fits : pool.Fits protocol event)
    (moved : system.step pool event = some next) {other : Nat}
    (apart : event.thread ≠ some other) :
    protocol.rely other pool.view next.view := by
  cases event with
  | start thread call =>
      obtain ⟨fresh, rfl⟩ := System.start_inv moved
      have point : pool.view.point thread = none := by
        simp [Pool.view, fresh]
      rw [Pool.view_update]
      apply (certified.call pool.view thread call sound.1 point).2.1
      rintro rfl
      exact apart rfl
  | run thread choice =>
      obtain ⟨label, _, guarantee⟩ := (sound.run_step fits moved).2
      apply protocol.rely_of_guarantee thread other label _ _ _ sound.1
        guarantee
      rintro rfl
      exact apart rfl
  | background work =>
      obtain ⟨state, worked, rfl⟩ := System.background_inv moved
      exact (certified.background pool.view work state sound.1 worked).2 other

theorem Pool.initial_sound {state : State}
    (invariant : protocol.invariant { state, point := fun _ => none }) :
    (Pool.initial state : Pool Label Choice State Call Reply).Sound
      protocol post :=
  ⟨invariant, fun _ _ _ running => by cases running⟩

/-! ## Calls that are watched -/

/-- The thread runs this call, with a postcondition of its own. -/
def Pool.Tracks (protocol : Protocol Label State)
    (pool : Pool Label Choice State Call Reply) (thread : Nat) (call : Call)
    (own : Reply → View Label State → Prop) : Prop :=
  ∃ program, pool.threads thread = some (call, program) ∧
    Safe protocol thread own program pool.view

theorem Pool.Tracks.step (certified : Certified system protocol post)
    {pool next : Pool Label Choice State Call Reply}
    {event : Event Choice Call Background} {thread : Nat} {call : Call}
    {own : Reply → View Label State → Prop}
    (tracks : pool.Tracks protocol thread call own)
    (sound : pool.Sound protocol post) (fits : pool.Fits protocol event)
    (moved : system.step pool event = some next) :
    next.Tracks protocol thread call own := by
  obtain ⟨program, running, safe⟩ := tracks
  by_cases mover : event.thread = some thread
  · cases event with
    | start other started =>
        obtain rfl := Option.some.inj mover
        obtain ⟨fresh, _⟩ := System.start_inv moved
        rw [fresh] at running
        cases running
    | run other choice =>
        obtain rfl := Option.some.inj mover
        obtain ⟨_, label, action, rest, state, found, acted, rfl⟩ :=
          System.run_inv moved
        rw [running] at found
        obtain ⟨rfl, rfl⟩ := Prod.mk.inj (Option.some.inj found)
        have point : pool.view.point other = some label := by
          simp [Pool.view, running, Program.label?]
        have later := (safe pool.view (protocol.rely_refl _ _) sound.1 point
          (fits label point) choice state acted).2.2
        refine ⟨_, Function.update_self _ _ _, ?_⟩
        rw [Pool.view_update]
        exact later
    | background work => cases mover
  · refine ⟨program, ?_, safe.of_rely (sound.rely certified fits moved mover)⟩
    cases event with
    | start other started =>
        obtain ⟨_, rfl⟩ := System.start_inv moved
        have different : thread ≠ other := by
          rintro rfl
          exact mover rfl
        exact (Function.update_of_ne different _ _).trans running
    | run other choice =>
        obtain ⟨_, _, _, _, _, _, _, rfl⟩ := System.run_inv moved
        have different : thread ≠ other := by
          rintro rfl
          exact mover rfl
        exact (Function.update_of_ne different _ _).trans running
    | background work =>
        obtain ⟨_, _, rfl⟩ := System.background_inv moved
        exact running

/-- The postcondition holds when the call has returned. -/
theorem Pool.Tracks.reply {pool : Pool Label Choice State Call Reply}
    {thread : Nat} {call : Call} {own : Reply → View Label State → Prop}
    (tracks : pool.Tracks protocol thread call own)
    (invariant : protocol.invariant pool.view)
    (returned : (pool.reply thread).isSome = true) :
    ∃ value, own value pool.view := by
  obtain ⟨program, running, safe⟩ := tracks
  unfold Pool.reply at returned
  rw [running] at returned
  cases program with
  | done value =>
      exact ⟨value, safe pool.view (protocol.rely_refl _ _) invariant⟩
  | step label action next => cases returned

theorem Pool.Tracks.exec (certified : Certified system protocol post)
    {pool final : Pool Label Choice State Call Reply}
    {events : List (Event Choice Call Background)} {thread : Nat} {call : Call}
    {own : Reply → View Label State → Prop}
    (tracks : pool.Tracks protocol thread call own)
    (sound : pool.Sound protocol post)
    (fits : AllSteps system.step (Pool.Fits protocol) pool events)
    (run : exec system.step pool events = some final) :
    final.Tracks protocol thread call own := by
  have both : final.Sound protocol post ∧
      final.Tracks protocol thread call own := by
    apply @exec_invariant _ _ system.step (Pool.Fits protocol)
      (fun pool => pool.Sound protocol post ∧
        pool.Tracks protocol thread call own) _ _ _ _ ⟨sound, tracks⟩ fits run
    intro pool event next holds fitsStep moved
    exact ⟨holds.1.step certified fitsStep moved,
      holds.2.step certified holds.1 fitsStep moved⟩
  exact both.2

/-- The starts of calls under consecutive names. -/
def startEvents (first : Nat) : List Call →
    List (Event Choice Call Background)
  | [] => []
  | call :: calls => .start first call :: startEvents (first + 1) calls

theorem fits_startEvents (first : Nat) (calls : List Call)
    (pool : Pool Label Choice State Call Reply) :
    AllSteps system.step (Pool.Fits protocol) pool
      (startEvents first calls) := by
  induction calls generalizing first pool with
  | nil => trivial
  | cons call calls ih => exact ⟨trivial, fun next _ => ih (first + 1) next⟩

/-- Calls that are started together leave the state alone, and each is tracked
if it is safe from here on. -/
theorem tracks_startEvents (certified : Certified system protocol post)
    {α : Type} (call : α → Call) (own : α → Reply → View Label State → Prop)
    {pool next : Pool Label Choice State Call Reply} {first : Nat}
    {items : List α} (sound : pool.Sound protocol post)
    (ran : exec system.step pool (startEvents first (items.map call)) =
      some next)
    (safe : ∀ item ∈ items, ∀ thread (view : View Label State),
      view.state = pool.state → Safe protocol thread (own item)
        (system.program thread (call item)) view) :
    next.Sound protocol post ∧ next.state = pool.state ∧
      ∀ item ∈ items, ∃ thread ∈ List.range' first items.length,
        next.Tracks protocol thread (call item) (own item) := by
  refine ⟨sound.exec certified (fits_startEvents _ _ _) ran, ?_⟩
  induction items generalizing pool first with
  | nil =>
      obtain rfl : pool = next := by simpa [startEvents] using ran
      exact ⟨rfl, fun _ member => by cases member⟩
  | cons item items ih =>
      obtain ⟨middle, moved, ranRest⟩ := exec_cons_iff.mp ran
      have fits : pool.Fits protocol
          (.start first (call item) : Event Choice Call Background) := trivial
      have soundMiddle := sound.step certified fits moved
      obtain ⟨_, rfl⟩ := System.start_inv moved
      obtain ⟨same, tracked⟩ := ih soundMiddle ranRest
        fun other member thread view isState =>
          safe other (List.mem_cons_of_mem _ member) thread view isState
      refine ⟨same, ?_⟩
      intro other member
      rcases List.mem_cons.mp member with rfl | later
      · refine ⟨first, List.mem_cons_self, ?_⟩
        apply Pool.Tracks.exec certified _ soundMiddle
          (fits_startEvents _ _ _) ranRest
        exact ⟨_, Function.update_self _ _ _,
          safe other List.mem_cons_self first _ rfl⟩
      · obtain ⟨thread, inRange, tracks⟩ := tracked other later
        exact ⟨thread, List.mem_cons_of_mem _ inRange, tracks⟩

end Runs

end HfMount.Interleaving
