import HfMount.Streaming.Calls

/-!
# Commit hooks

A hook is registered for its inode until its fulfilment removes it.  Whoever
settles a channel, or installs a hook and finds the channel settled, fulfils
the hook before its call returns; so in a quiet mount the registered hooks are
those of open handles whose commit is still to come.
-/

namespace HfMount.Streaming

open Inode Interleaving

/-- A step here belongs to a fulfilment of the hook of `fh`, or decides
whether one is due. -/
def Label.Fulfils (label : Label) (fh : FileHandle) : Prop :=
  label.place = .checkTerminal fh ∨ label.place = .takeHook fh ∨
    label.place = .setCommitted fh

/-- The hook has been taken, and its entry is about to be removed. -/
def Label.Removes (label : Label) (fh : FileHandle) (hook : HookId) : Prop :=
  label.place = .removePending fh hook

/-- The call installs the handle, or has removed it and settles its channel. -/
def Caller.Settles : Caller → FileHandle → Prop
  | .release handle, fh => handle = fh
  | .opened _ handle, fh => handle = fh
  | .created _ handle, fh => handle = fh
  | _, _ => False

/-- Before a release has removed its handle, and when the handle is installed
or settled, the call does not see to it. -/
def Place.isOutside : Place → Bool
  | .removeHandle _ | .unlockStaging _ | .dropHandle _ | .reapInode _ => true
  | _ => false

def Label.Settles (label : Label) (fh : FileHandle) : Prop :=
  label.caller.Settles fh ∧ label.place.isOutside = false

/-- The channel is settled, or its hook is the one that is registered for the
inode. -/
def StreamingFs.Handed (fs : StreamingFs) (fh : FileHandle) : Prop :=
  (fs.channels fh).isTerminal = true ∨
    ∃ hook, (fs.channels fh).commitHook = some hook ∧
      fs.pendingCommits (fs.channels fh).ino = some hook

theorem StreamingFs.handed_iff {fs : StreamingFs} {fh : FileHandle} :
    fs.Handed fh ↔ (fs.channels fh).isTerminal = true ∨
      (fs.channels fh).commitHook.isSome = true ∧
        fs.pendingCommits (fs.channels fh).ino =
          (fs.channels fh).commitHook := by
  apply or_congr_right
  constructor
  · rintro ⟨hook, held, registered⟩
    rw [held]
    exact ⟨rfl, registered⟩
  · rintro ⟨present, registered⟩
    obtain ⟨hook, held⟩ := Option.isSome_iff_exists.mp present
    exact ⟨hook, held, registered.trans held⟩

instance (fs : StreamingFs) (fh : FileHandle) : Decidable (fs.Handed fh) :=
  decidable_of_iff _ StreamingFs.handed_iff.symm

/-- The handle is open, or handed over, or about to be. -/
def StreamingFs.Covered (fs : StreamingFs) (fh : FileHandle) : Prop :=
  fh ∈ fs.openFiles ∨ fs.Handed fh ∨
    ∃ call, fs.openFilesLock = some (call, fh)

/-- What no step takes back. -/
structure StreamingFs.Grows (before after : StreamingFs) : Prop where
  next : before.nextFileHandle ≤ after.nextFileHandle
  ino : ∀ fh, fh < before.nextFileHandle →
    (after.channels fh).ino = (before.channels fh).ino
  terminal : ∀ fh, fh < before.nextFileHandle →
    (before.channels fh).isTerminal = true →
      (after.channels fh).isTerminal = true
  hooks : ∀ hook record, before.hooks hook = some record →
    ∃ other, after.hooks hook = some other ∧ other.channel = record.channel
  /-- Only the hook of a settled channel is taken. -/
  hook : ∀ fh hook, fh < before.nextFileHandle →
    (before.channels fh).commitHook = some hook →
      (after.channels fh).isTerminal = true ∨
        (after.channels fh).commitHook = some hook
  handed : ∀ fh, fh < before.nextFileHandle → before.Handed fh →
    after.Handed fh

namespace StreamingFs

theorem Grows.refl (fs : StreamingFs) : fs.Grows fs :=
  ⟨Nat.le_refl _, fun _ _ => rfl, fun _ _ settled => settled,
    fun _ record found => ⟨record, found, rfl⟩, fun _ _ _ => Or.inr,
    fun _ _ => id⟩

theorem Grows.trans {first second third : StreamingFs}
    (left : first.Grows second) (right : second.Grows third) :
    first.Grows third := by
  constructor
  · exact Nat.le_trans left.next right.next
  · intro fh allocated
    rw [right.ino fh (Nat.lt_of_lt_of_le allocated left.next),
      left.ino fh allocated]
  · intro fh allocated settled
    exact right.terminal fh (Nat.lt_of_lt_of_le allocated left.next)
      (left.terminal fh allocated settled)
  · intro hook record found
    obtain ⟨middle, foundMiddle, same⟩ := left.hooks hook record found
    obtain ⟨last, foundLast, sameLast⟩ := right.hooks hook middle foundMiddle
    exact ⟨last, foundLast, sameLast.trans same⟩
  · intro fh hook allocated held
    have later := Nat.lt_of_lt_of_le allocated left.next
    rcases left.hook fh hook allocated held with terminal | held
    · exact Or.inl (right.terminal fh later terminal)
    · exact right.hook fh hook later held
  · intro fh allocated handed
    exact right.handed fh (Nat.lt_of_lt_of_le allocated left.next)
      (left.handed fh allocated handed)

/-- Nothing that the hooks depend on changes. -/
structure SameHooks (before after : StreamingFs) : Prop where
  unallocated : ∀ fh, before.nextFileHandle ≤ fh →
    after.channels fh = before.channels fh
  ino : ∀ fh, (after.channels fh).ino = (before.channels fh).ino
  hook : ∀ fh, (after.channels fh).commitHook = (before.channels fh).commitHook
  terminal : ∀ fh,
    (after.channels fh).isTerminal = (before.channels fh).isTerminal
  next : after.nextFileHandle = before.nextFileHandle
  openFiles : after.openFiles = before.openFiles
  lock : after.openFilesLock = before.openFilesLock
  pending : after.pendingCommits = before.pendingCommits
  hooks : after.hooks = before.hooks
  nextHook : after.nextHook = before.nextHook

theorem SameHooks.refl (fs : StreamingFs) : fs.SameHooks fs :=
  ⟨fun _ _ => rfl, fun _ => rfl, fun _ => rfl, fun _ => rfl, rfl, rfl, rfl,
    rfl, rfl, rfl⟩

theorem SameHooks.handed {before after : StreamingFs}
    (same : before.SameHooks after) (fh : FileHandle) :
    after.Handed fh ↔ before.Handed fh := by
  unfold Handed
  rw [same.terminal, same.hook, same.pending, same.ino]

theorem SameHooks.grows {before after : StreamingFs}
    (same : before.SameHooks after) : before.Grows after := by
  constructor
  · exact Nat.le_of_eq same.next.symm
  · exact fun fh _ => same.ino fh
  · exact fun fh _ settled => (same.terminal fh).trans settled
  · exact fun hook record found => ⟨record, same.hooks ▸ found, rfl⟩
  · exact fun fh _ _ held => Or.inr ((same.hook fh).trans held)
  · exact fun fh _ => (same.handed fh).mpr

/-- A change of the inodes, the locks or the Hub. -/
theorem SameHooks.of_eq {before after : StreamingFs}
    (channels : after.channels = before.channels)
    (next : after.nextFileHandle = before.nextFileHandle)
    (openFiles : after.openFiles = before.openFiles)
    (lock : after.openFilesLock = before.openFilesLock)
    (pending : after.pendingCommits = before.pendingCommits)
    (hooks : after.hooks = before.hooks)
    (nextHook : after.nextHook = before.nextHook) :
    before.SameHooks after := by
  constructor
  all_goals first | assumption | simp [channels]

/-- A change of one channel that keeps its inode, its hook and whether it is
settled. -/
theorem sameHooks_updateChannel {fs : StreamingFs} {fh : FileHandle}
    (allocated : fh < fs.nextFileHandle)
    {change : StreamingChannel → StreamingChannel}
    (ino : (change (fs.channels fh)).ino = (fs.channels fh).ino)
    (hook : (change (fs.channels fh)).commitHook =
      (fs.channels fh).commitHook)
    (terminal : (change (fs.channels fh)).isTerminal =
      (fs.channels fh).isTerminal) :
    fs.SameHooks (fs.updateChannel fh change) :=
  ⟨fun _ bound => fs.channels_updateChannel_of_ne change
      (Nat.ne_of_gt (Nat.lt_of_lt_of_le allocated bound)),
    fs.look_updateChannel (·.ino) fh ino,
    fs.look_updateChannel (·.commitHook) fh hook,
    fs.look_updateChannel (·.isTerminal) fh terminal, rfl, rfl, rfl, rfl, rfl,
    rfl⟩

end StreamingFs

/-- The hooks, their entries and who is about to fulfil them. -/
structure HooksInOrder (view : View Label StreamingFs) : Prop where
  /-- A channel that was not set up has no hook. -/
  fresh : ∀ fh, view.state.nextFileHandle ≤ fh →
    view.state.channels fh = .absent
  freshHook : ∀ hook, view.state.nextHook ≤ hook →
    view.state.hooks hook = none
  allocated : ∀ fh ∈ view.state.openFiles, fh < view.state.nextFileHandle
  made : ∀ hook record, view.state.hooks hook = some record →
    record.channel < view.state.nextFileHandle
  /-- A hook that a channel holds was made for it and is not fulfilled. -/
  held : ∀ fh hook, (view.state.channels fh).commitHook = some hook →
    view.state.hooks hook = some { channel := fh, value := none }
  /-- An entry is held by its channel, or its removal is under way. -/
  entry : ∀ ino hook, view.state.pendingCommits ino = some hook →
    ∃ record, view.state.hooks hook = some record ∧
      (view.state.channels record.channel).ino = ino ∧
      ((view.state.channels record.channel).commitHook = some hook ∨
        view.Somewhere (·.Removes record.channel hook))
  /-- The hook of a settled channel is about to be fulfilled. -/
  settled : ∀ fh, (view.state.channels fh).isTerminal = true →
    (view.state.channels fh).commitHook ≠ none →
      view.Somewhere (·.Fulfils fh)
  /-- A handle that is not open is settled, or some call sees to it. -/
  handle : ∀ fh, fh < view.state.nextFileHandle →
    fh ∈ view.state.openFiles ∨
      (view.state.channels fh).isTerminal = true ∨
      view.Somewhere (·.Settles fh)

/-- The channel was set up and has reached its final state. -/
def StreamingFs.Settled (fs : StreamingFs) (fh : FileHandle) : Prop :=
  fh < fs.nextFileHandle ∧ (fs.channels fh).isTerminal = true

theorem StreamingFs.Settled.grows {before after : StreamingFs}
    {fh : FileHandle} (settled : before.Settled fh)
    (grows : before.Grows after) : after.Settled fh :=
  ⟨Nat.lt_of_lt_of_le settled.1 grows.next,
    grows.terminal fh settled.1 settled.2⟩

/-- The next step sees to the same handle, unless that is settled. -/
def GoesOn (fs : StreamingFs) (label : Label) (next : Option Label) : Prop :=
  ∀ fh, label.Settles fh →
    fs.Settled fh ∨ ∃ later, next = some later ∧ later.Settles fh

theorem goesOn_label (fs : StreamingFs) (label : Label) {place : Place}
    (working : place.isOutside = false) :
    GoesOn fs label (some ⟨label.caller, place⟩) :=
  fun _ settles => Or.inr ⟨_, rfl, settles.1, working⟩

theorem GoesOn.grows {before after : StreamingFs} {label : Label}
    {next : Option Label} (goesOn : GoesOn before label next)
    (grows : before.Grows after) : GoesOn after label next :=
  fun fh settles => (goesOn fh settles).imp_left (·.grows grows)

/-- A removal of an entry is that of a hook that was made for the channel at
hand. -/
def RemovesOwn (label : Label) (before after : StreamingFs) : Prop :=
  ∀ ino hook, before.pendingCommits ino = some hook →
    after.pendingCommits ino ≠ some hook →
      ∃ record, before.hooks hook = some record ∧
        label.Removes record.channel hook

/-- The hook of the channel is or can be registered for the inode. -/
def StreamingFs.Registrable (fs : StreamingFs) (fh : FileHandle) : Prop :=
  fs.Handed fh ∨ (fs.channels fh).commitHook = none ∧
    fs.pendingCommits (fs.channels fh).ino = none

instance (fs : StreamingFs) (fh : FileHandle) : Decidable (fs.Registrable fh) :=
  inferInstanceAs (Decidable (_ ∨ _ ∧ _))

def Caller.isRelease : Caller → Bool
  | .release _ => true
  | _ => false

/-- The channel that gets a hook. -/
def Place.hooked : Place → Option FileHandle
  | .installHook fh => some fh
  | _ => none

/-- A release registers the hook of the channel that it hands over. -/
def HandsOver (label : Label) (fs : StreamingFs) : Prop :=
  label.caller.isRelease = true → ∀ fh ∈ label.place.hooked, fs.Registrable fh

instance (label : Label) (fs : StreamingFs) : Decidable (HandsOver label fs) :=
  inferInstanceAs (Decidable (_ → _))

/-- What a call can rely on.  Where each release hands its channel over, no
handle gets lost. -/
structure Relies (strict : Prop) (thread : CallId)
    (before after : StreamingFs) : Prop where
  grows : before.Grows after
  lock : ∀ fh, before.openFilesLock = some (thread, fh) →
    after.openFilesLock = some (thread, fh)
  covered : strict → ∀ fh, fh < before.nextFileHandle → before.Covered fh →
    after.Covered fh

/-- What a call promises of each of its steps. -/
structure Promises (strict : Prop) (thread : CallId) (label : Label)
    (before after : StreamingFs) : Prop where
  grows : before.Grows after
  removes : RemovesOwn label before after
  locks : ∀ other fh, other ≠ thread →
    before.openFilesLock = some (other, fh) →
      after.openFilesLock = some (other, fh)
  covered : strict → ∀ fh, fh < before.nextFileHandle → before.Covered fh →
    after.Covered fh

theorem Relies.trans {strict : Prop} {thread : CallId}
    {first second third : StreamingFs}
    (left : Relies strict thread first second)
    (right : Relies strict thread second third) :
    Relies strict thread first third :=
  ⟨left.grows.trans right.grows, fun fh held => right.lock fh (left.lock fh held),
    fun holds fh allocated covered => right.covered holds fh
      (Nat.lt_of_lt_of_le allocated left.grows.next)
      (left.covered holds fh allocated covered)⟩

/-- What the calls promise each other about the hooks. -/
def hookProtocol (strict : Prop) : Protocol Label StreamingFs where
  invariant := HooksInOrder
  rely thread view after := Relies strict thread view.state after.state
  guarantee thread label view after :=
    Promises strict thread label view.state after.state
  fits _ label view := strict → HandsOver label view.state
  rely_refl _ view := ⟨.refl view.state, fun _ => id, fun _ _ _ => id⟩
  rely_trans _ _ _ _ := .trans
  rely_of_guarantee _ other _ _ _ different _ promised :=
    ⟨promised.grows, fun fh => promised.locks other fh different,
      promised.covered⟩

/-! ## What the steps do to the hooks -/

namespace HooksInOrder

variable {view : View Label StreamingFs} {thread : Nat} {label : Label}
  {next : Option Label} {fh : FileHandle}

/-- A change of the state that the hooks do not depend on. -/
theorem same (inOrder : HooksInOrder view) {state : StreamingFs}
    (same : view.state.SameHooks state) :
    HooksInOrder { view with state } := by
  constructor
  · intro fh bound
    have before : view.state.nextFileHandle ≤ fh := same.next ▸ bound
    exact (same.unallocated fh before).trans (inOrder.fresh fh before)
  · intro hook bound
    rw [same.nextHook] at bound
    exact (congrFun same.hooks hook).trans (inOrder.freshHook hook bound)
  · intro fh member
    rw [same.next]
    exact inOrder.allocated fh (same.openFiles ▸ member)
  · intro hook record found
    rw [same.next]
    exact inOrder.made hook record ((congrFun same.hooks hook).symm.trans found)
  · intro fh hook held
    exact (congrFun same.hooks hook).trans
      (inOrder.held fh hook ((same.hook fh).symm.trans held))
  · intro ino hook found
    obtain ⟨record, recorded, sameIno, kept⟩ :=
      inOrder.entry ino hook ((congrFun same.pending ino).symm.trans found)
    exact ⟨record, (congrFun same.hooks hook).trans recorded,
      (same.ino _).trans sameIno, kept.imp_left (same.hook _).trans⟩
  · intro fh terminal hook
    exact inOrder.settled fh ((same.terminal fh).symm.trans terminal)
      fun missing => hook ((same.hook fh).trans missing)
  · intro fh bound
    rcases inOrder.handle fh (same.next ▸ bound) with member | terminal | settles
    · exact Or.inl (same.openFiles ▸ member)
    · exact Or.inr (Or.inl ((same.terminal fh).trans terminal))
    · exact Or.inr (Or.inr settles)

/-- The handles are seen to when a thread goes on. -/
theorem handle_advance (inOrder : HooksInOrder view)
    (point : view.point thread = some label)
    (goesOn : GoesOn view.state label next) {state : StreamingFs}
    (fh : FileHandle) (bound : fh < view.state.nextFileHandle) :
    fh ∈ view.state.openFiles ∨
      (view.state.channels fh).isTerminal = true ∨
      (view.advance thread state next).Somewhere (·.Settles fh) := by
  rcases inOrder.handle fh bound with member | terminal | settles
  · exact Or.inl member
  · exact Or.inr (Or.inl terminal)
  · by_cases terminal : (view.state.channels fh).isTerminal = true
    · exact Or.inr (Or.inl terminal)
    · refine Or.inr (Or.inr (settles.advance point ?_))
      intro here
      exact (goesOn fh here).resolve_left fun settled => terminal settled.2

/-- Going on from a place where nothing is owed. -/
theorem move (inOrder : HooksInOrder view)
    (point : view.point thread = some label)
    (goesOn : GoesOn view.state label next)
    (fulfils : ∀ fh, label.Fulfils fh →
      ((view.state.channels fh).isTerminal = true →
        (view.state.channels fh).commitHook = none) ∨
      ∃ later, next = some later ∧ later.Fulfils fh)
    (keeps : ∀ fh hook, ¬ label.Removes fh hook) :
    HooksInOrder (view.advance thread view.state next) := by
  refine ⟨inOrder.fresh, inOrder.freshHook, inOrder.allocated, inOrder.made,
    inOrder.held, ?_, ?_, ?_⟩
  · intro ino hook found
    obtain ⟨record, recorded, sameIno, kept⟩ := inOrder.entry ino hook found
    exact ⟨record, recorded, sameIno, kept.imp_right fun removing =>
      removing.advance point fun removes => absurd removes (keeps _ _)⟩
  · intro fh terminal hook
    refine (inOrder.settled fh terminal hook).advance point ?_
    intro here
    rcases fulfils fh here with missing | later
    · exact absurd (missing terminal) hook
    · exact later
  · intro fh bound
    exact inOrder.handle_advance point goesOn fh bound

/-- A call starts. -/
theorem start (inOrder : HooksInOrder view)
    (idle : view.point thread = none) :
    HooksInOrder (view.advance thread view.state next) := by
  refine ⟨inOrder.fresh, inOrder.freshHook, inOrder.allocated, inOrder.made,
    inOrder.held, ?_, ?_, ?_⟩
  · intro ino hook found
    obtain ⟨record, recorded, sameIno, kept⟩ := inOrder.entry ino hook found
    exact ⟨record, recorded, sameIno,
      kept.imp_right fun removing => removing.start idle⟩
  · intro fh terminal hook
    exact (inOrder.settled fh terminal hook).start idle
  · intro fh bound
    exact (inOrder.handle fh bound).imp_right
      (Or.imp_right fun settles => settles.start idle)

/-- A step that the hooks do not depend on. -/
theorem advance_same (inOrder : HooksInOrder view)
    (point : view.point thread = some label) {state : StreamingFs}
    (unchanged : view.state.SameHooks state)
    (goesOn : GoesOn view.state label next)
    (fulfils : ∀ fh, ¬ label.Fulfils fh)
    (keeps : ∀ fh hook, ¬ label.Removes fh hook) :
    HooksInOrder (view.advance thread state next) :=
  (inOrder.same unchanged).move point (goesOn.grows unchanged.grows)
    (fun fh here => absurd here (fulfils fh)) keeps

/-- Changes of an allocated channel keep the others as they were. -/
theorem fresh_updateChannel (inOrder : HooksInOrder view)
    (allocated : fh < view.state.nextFileHandle)
    (change : StreamingChannel → StreamingChannel) (other : FileHandle)
    (bound : view.state.nextFileHandle ≤ other) :
    (view.state.updateChannel fh change).channels other = .absent := by
  have different : other ≠ fh :=
    Nat.ne_of_gt (Nat.lt_of_lt_of_le allocated bound)
  rw [StreamingFs.channels_updateChannel_of_ne _ _ different]
  exact inOrder.fresh other bound

theorem putHook (inOrder : HooksInOrder view) {caller : Caller} {ino : Ino}
    (point : view.point thread = some ⟨caller, .installHook fh⟩)
    (allocated : fh < view.state.nextFileHandle)
    (ofIno : (view.state.channels fh).ino = ino) :
    HooksInOrder (view.advance thread (view.state.putHook ino fh)
      (some ⟨caller, .checkTerminal fh⟩)) := by
  have checks : (view.advance thread (view.state.putHook ino fh)
      (some ⟨caller, .checkTerminal fh⟩)).Somewhere (·.Fulfils fh) :=
    View.somewhere_advance_self rfl (Or.inl rfl)
  cases present : (view.state.channels fh).commitHook with
  | some hook =>
      have unchanged : view.state.putHook ino fh = view.state := by
        simp [StreamingFs.putHook, present]
      rw [unchanged]
      refine inOrder.move point (goesOn_label _ _ rfl) ?_ ?_
      · rintro other (here | here | here) <;> cases here
      · intro other hook here
        cases here
  | none =>
      have fresh := inOrder.freshHook view.state.nextHook (Nat.le_refl _)
      have old : ∀ hook record, view.state.hooks hook = some record →
          hook ≠ view.state.nextHook := by
        rintro hook record found rfl
        rw [fresh] at found
        cases found
      have hookless : ∀ other hook,
          (view.state.channels other).commitHook = some hook → other ≠ fh := by
        rintro other hook held rfl
        rw [present] at held
        cases held
      constructor
      all_goals simp only [View.advance, StreamingFs.putHook, present]
      · exact inOrder.fresh_updateChannel allocated _
      · intro hook bound
        rw [Function.update_of_ne (Nat.ne_of_gt bound)]
        exact inOrder.freshHook hook (Nat.le_of_succ_le bound)
      · exact inOrder.allocated
      · intro hook record found
        by_cases registered : hook = view.state.nextHook
        · subst registered
          rw [Function.update_self] at found
          obtain rfl := Option.some.inj found
          exact allocated
        · rw [Function.update_of_ne registered] at found
          exact inOrder.made hook record found
      · intro other hook held
        by_cases same : other = fh
        · subst same
          simp only [StreamingFs.channels_updateChannel_self,
            Option.some.injEq] at held
          subst held
          exact Function.update_self _ _ _
        · rw [StreamingFs.channels_updateChannel_of_ne _ _ same] at held
          have found := inOrder.held other hook held
          rw [Function.update_of_ne (old _ _ found)]
          exact found
      · intro target hook found
        by_cases registered : hook = view.state.nextHook
        · subst registered
          have target_eq : target = ino := by
            by_contra elsewhere
            have before : view.state.pendingCommits target =
                some view.state.nextHook := by
              split at found
              · rwa [Function.update_of_ne elsewhere] at found
              · exact found
            obtain ⟨record, recorded, _⟩ := inOrder.entry _ _ before
            exact old _ _ recorded rfl
          refine ⟨{ channel := fh, value := none },
            Function.update_self _ _ _, ?_, Or.inl ?_⟩
          · rw [StreamingFs.channels_updateChannel_self, target_eq]
            exact ofIno
          · rw [StreamingFs.channels_updateChannel_self]
        · have before : view.state.pendingCommits target = some hook := by
            split at found
            · by_cases here : target = ino
              · subst here
                rw [Function.update_self] at found
                exact absurd (Option.some.inj found).symm registered
              · rwa [Function.update_of_ne here] at found
            · exact found
          obtain ⟨record, recorded, sameIno, kept⟩ :=
            inOrder.entry target hook before
          refine ⟨record, ?_, ?_, ?_⟩
          · rwa [Function.update_of_ne registered]
          · rw [view.state.look_updateChannel (·.ino) fh rfl]
            exact sameIno
          · rcases kept with held | removing
            · rw [StreamingFs.channels_updateChannel_of_ne _ _
                (hookless _ _ held)]
              exact Or.inl held
            · exact Or.inr (removing.advance point fun here => by cases here)
      · intro other terminal hook
        by_cases same : other = fh
        · rw [same]
          exact View.somewhere_advance_self rfl (Or.inl rfl)
        · rw [StreamingFs.channels_updateChannel_of_ne _ _ same] at terminal hook
          refine (inOrder.settled other terminal hook).advance point ?_
          rintro (here | here | here) <;> cases here
      · intro other bound
        rw [view.state.look_updateChannel (·.isTerminal) fh rfl]
        exact inOrder.handle_advance point (goesOn_label _ _ rfl) other bound

theorem pending_putHook {fs : StreamingFs} {ino target : Ino}
    {hook : HookId} (found : fs.pendingCommits target = some hook) :
    (fs.putHook ino fh).pendingCommits target = some hook := by
  unfold StreamingFs.putHook
  split
  · exact found
  · change (if _ then _ else _ : Ino → Option HookId) target = some hook
    split <;> rename_i free
    · by_cases here : target = ino
      · rw [here] at found
        rw [found] at free
        cases free
      · rwa [Function.update_of_ne here]
    · exact found

theorem takeHook (inOrder : HooksInOrder view) {caller : Caller}
    {hook : HookId} {result : CommitResult}
    (point : view.point thread = some ⟨caller, .takeHook fh⟩)
    (allocated : fh < view.state.nextFileHandle)
    (present : (view.state.channels fh).commitHook = some hook) :
    HooksInOrder (view.advance thread (view.state.takeHook fh result).1
      (some ⟨caller, .removePending fh hook⟩)) := by
  have made := inOrder.held fh hook present
  constructor
  all_goals simp only [View.advance, StreamingFs.takeHook, present]
  · exact inOrder.fresh_updateChannel allocated _
  · intro other bound
    have different : other ≠ hook := by
      rintro rfl
      rw [inOrder.freshHook other bound] at made
      cases made
    rw [Function.update_of_ne different]
    exact inOrder.freshHook other bound
  · exact inOrder.allocated
  · intro other record found
    by_cases taken : other = hook
    · subst taken
      rw [Function.update_self] at found
      obtain rfl := Option.some.inj found
      exact allocated
    · rw [Function.update_of_ne taken] at found
      exact inOrder.made other record found
  · intro other otherHook held
    by_cases same : other = fh
    · subst same
      simp at held
    · rw [StreamingFs.channels_updateChannel_of_ne _ _ same] at held
      have found := inOrder.held other otherHook held
      have different : otherHook ≠ hook := by
        rintro rfl
        rw [made] at found
        exact same (congrArg CommitHook.channel (Option.some.inj found)).symm
      rwa [Function.update_of_ne different]
  · intro target otherHook found
    obtain ⟨record, recorded, sameIno, kept⟩ :=
      inOrder.entry target otherHook found
    by_cases taken : otherHook = hook
    · subst taken
      obtain rfl := Option.some.inj (made.symm.trans recorded)
      refine ⟨{ channel := fh, value := some result },
        Function.update_self _ _ _, ?_, Or.inr ?_⟩
      · rw [view.state.look_updateChannel (·.ino) fh rfl]
        exact sameIno
      · exact View.somewhere_advance_self rfl rfl
    · refine ⟨record, ?_, ?_, ?_⟩
      · rwa [Function.update_of_ne taken]
      · rw [view.state.look_updateChannel (·.ino) fh rfl]
        exact sameIno
      · rcases kept with held | removing
        · have different : record.channel ≠ fh := by
            intro same
            rw [same, present] at held
            exact taken (Option.some.inj held).symm
          rw [StreamingFs.channels_updateChannel_of_ne _ _ different]
          exact Or.inl held
        · exact Or.inr (removing.advance point fun here => by cases here)
  · intro other terminal held
    by_cases same : other = fh
    · subst same
      simp at held
    · rw [StreamingFs.channels_updateChannel_of_ne _ _ same] at terminal held
      refine (inOrder.settled other terminal held).advance point ?_
      rintro (here | here | here)
      · cases here
      · exact absurd (Place.takeHook.inj here).symm same
      · cases here
  · intro other bound
    rw [view.state.look_updateChannel (·.isTerminal) fh rfl]
    exact inOrder.handle_advance point (goesOn_label _ _ rfl) other bound

theorem removePending (inOrder : HooksInOrder view) {caller : Caller}
    {ino : Ino} {hook : HookId}
    (point : view.point thread = some ⟨caller, .removePending fh hook⟩)
    (allocated : fh < view.state.nextFileHandle)
    (ofIno : (view.state.channels fh).ino = ino)
    (goesOn : GoesOn view.state ⟨caller, .removePending fh hook⟩ next) :
    HooksInOrder (view.advance thread (view.state.removePending ino fh hook)
      next) := by
  have old : ∀ target other,
      (view.state.removePending ino fh hook).pendingCommits target =
        some other →
      view.state.pendingCommits target = some other ∧
        (target = ino → other ≠ hook) := by
    intro target other found
    simp only [StreamingFs.removePending] at found
    split at found <;> rename_i registered
    · by_cases here : target = ino
      · subst here
        rw [Function.update_self] at found
        cases found
      · rw [Function.update_of_ne here] at found
        exact ⟨found, fun same => absurd same here⟩
    · refine ⟨found, ?_⟩
      rintro rfl rfl
      exact registered found
  have same : view.state.SameHooks (view.state.updateChannel fh
      fun channel => { channel with hookLocked := false }) :=
    StreamingFs.sameHooks_updateChannel allocated rfl rfl rfl
  constructor
  · exact inOrder.fresh_updateChannel allocated
      fun channel => { channel with hookLocked := false }
  · exact inOrder.freshHook
  · exact inOrder.allocated
  · exact inOrder.made
  · intro other otherHook held
    exact inOrder.held other otherHook ((same.hook other).symm.trans held)
  · intro target other found
    obtain ⟨before, kept⟩ := old target other found
    obtain ⟨record, recorded, sameIno, present⟩ :=
      inOrder.entry target other before
    refine ⟨record, recorded, (same.ino _).trans sameIno, ?_⟩
    rcases present with held | removing
    · exact Or.inl ((same.hook _).trans held)
    · refine Or.inr (removing.advance point ?_)
      intro here
      obtain ⟨channel, rfl⟩ := Place.removePending.inj here
      rw [← channel, ofIno] at sameIno
      exact absurd rfl (kept sameIno.symm)
  · intro other terminal held
    refine (inOrder.settled other ((same.terminal other).symm.trans terminal)
      fun missing => held ((same.hook other).trans missing)).advance point ?_
    rintro (here | here | here) <;> cases here
  · intro other bound
    exact (inOrder.handle_advance point goesOn other bound).imp_right
      (Or.imp_left (same.terminal other).trans)

/-- A channel reaches its final state, and the next step fulfils its hook. -/
theorem settle (inOrder : HooksInOrder view)
    (point : view.point thread = some label)
    (allocated : fh < view.state.nextFileHandle)
    {change : StreamingChannel → StreamingChannel}
    (ino : (change (view.state.channels fh)).ino =
      (view.state.channels fh).ino)
    (hook : (change (view.state.channels fh)).commitHook =
      (view.state.channels fh).commitHook)
    (terminal : (change (view.state.channels fh)).isTerminal = true)
    (goesOn : ∀ other, other ≠ fh → label.Settles other →
      ∃ later, next = some later ∧ later.Settles other)
    (later : ∃ later, next = some later ∧ later.Fulfils fh)
    (only : ∀ other, label.Fulfils other → other = fh)
    (keeps : ∀ other hook, ¬ label.Removes other hook) :
    HooksInOrder (view.advance thread (view.state.updateChannel fh change)
      next) := by
  have sameIno := view.state.look_updateChannel (·.ino) fh ino
  have sameHook := view.state.look_updateChannel (·.commitHook) fh hook
  constructor
  · exact inOrder.fresh_updateChannel allocated change
  · exact inOrder.freshHook
  · exact inOrder.allocated
  · exact inOrder.made
  · intro other otherHook held
    exact inOrder.held other otherHook ((sameHook other).symm.trans held)
  · intro target otherHook found
    obtain ⟨record, recorded, recordIno, kept⟩ :=
      inOrder.entry target otherHook found
    refine ⟨record, recorded, (sameIno _).trans recordIno, ?_⟩
    rcases kept with held | removing
    · exact Or.inl ((sameHook _).trans held)
    · exact Or.inr (removing.advance point
        fun removes => absurd removes (keeps _ _))
  · intro other settled held
    by_cases same : other = fh
    · obtain ⟨label, here, fulfils⟩ := later
      rw [same]
      exact View.somewhere_advance_self here fulfils
    · have settledBefore :
          (view.state.channels other).isTerminal = true := by
        rw [← StreamingFs.channels_updateChannel_of_ne view.state change same]
        exact settled
      have heldBefore : (view.state.channels other).commitHook ≠ none :=
        fun missing => held ((sameHook other).trans missing)
      exact (inOrder.settled other settledBefore heldBefore).advance point
        fun here => absurd (only other here) same
  · intro other bound
    by_cases same : other = fh
    · rw [same]
      refine Or.inr (Or.inl ?_)
      exact (congrArg StreamingChannel.isTerminal
        (view.state.channels_updateChannel_self fh change)).trans terminal
    · rcases inOrder.handle other bound with member | settled | settles
      · exact Or.inl member
      · refine Or.inr (Or.inl ?_)
        exact (congrArg StreamingChannel.isTerminal
          (view.state.channels_updateChannel_of_ne change same)).trans settled
      · exact Or.inr (Or.inr (settles.advance point (goesOn other same)))

/-- A writer is set up, and the call goes on to install its handle. -/
theorem allocate (inOrder : HooksInOrder view)
    (point : view.point thread = some label) {channel : StreamingChannel}
    (hookless : channel.commitHook = none)
    (later : ∃ later, next = some later ∧
      later.Settles view.state.nextFileHandle)
    (settles : ∀ fh, ¬ label.Settles fh) (fulfils : ∀ fh, ¬ label.Fulfils fh)
    (keeps : ∀ fh hook, ¬ label.Removes fh hook) :
    HooksInOrder (view.advance thread
      { view.state with
        channels := Function.update view.state.channels
          view.state.nextFileHandle channel
        nextFileHandle := view.state.nextFileHandle + 1 } next) := by
  have absent := inOrder.fresh view.state.nextFileHandle (Nat.le_refl _)
  have others : ∀ fh, fh ≠ view.state.nextFileHandle →
      Function.update view.state.channels view.state.nextFileHandle channel fh =
        view.state.channels fh :=
    fun fh different => Function.update_of_ne different _ _
  have sameHook : ∀ fh, (Function.update view.state.channels
      view.state.nextFileHandle channel fh).commitHook =
        (view.state.channels fh).commitHook := by
    intro fh
    by_cases same : fh = view.state.nextFileHandle
    · rw [same, Function.update_self, hookless, absent]
      rfl
    · rw [others fh same]
  constructor
  · intro fh bound
    rw [← inOrder.fresh fh (Nat.le_of_succ_le bound)]
    exact others fh (Nat.ne_of_gt bound)
  · exact inOrder.freshHook
  · exact fun fh member => Nat.lt_succ_of_lt (inOrder.allocated fh member)
  · exact fun hook record found =>
      Nat.lt_succ_of_lt (inOrder.made hook record found)
  · intro fh hook held
    exact inOrder.held fh hook ((sameHook fh).symm.trans held)
  · intro ino hook found
    obtain ⟨record, recorded, sameIno, kept⟩ := inOrder.entry ino hook found
    have different : record.channel ≠ view.state.nextFileHandle :=
      Nat.ne_of_lt (inOrder.made hook record recorded)
    refine ⟨record, recorded, ?_, ?_⟩
    · exact (congrArg StreamingChannel.ino (others _ different)).trans sameIno
    · rcases kept with held | removing
      · exact Or.inl ((sameHook _).trans held)
      · exact Or.inr (removing.advance point
          fun removes => absurd removes (keeps _ _))
  · intro fh terminal held
    have different : fh ≠ view.state.nextFileHandle := by
      rintro rfl
      apply held
      exact (congrArg StreamingChannel.commitHook
        (Function.update_self _ _ _)).trans hookless
    refine (inOrder.settled fh ?_ ?_).advance point
      fun here => absurd here (fulfils fh)
    · rw [← others fh different]
      exact terminal
    · exact fun missing => held ((sameHook fh).trans missing)
  · intro fh bound
    by_cases same : fh = view.state.nextFileHandle
    · obtain ⟨label, here, settles⟩ := later
      rw [same]
      exact Or.inr (Or.inr (View.somewhere_advance_self here settles))
    · have before : fh < view.state.nextFileHandle :=
        Nat.lt_of_le_of_ne (Nat.le_of_lt_succ bound) same
      rcases inOrder.handle fh before with member | terminal | somewhere
      · exact Or.inl member
      · refine Or.inr (Or.inl ?_)
        rw [← others fh same] at terminal
        exact terminal
      · exact Or.inr (Or.inr (somewhere.advance point
          fun here => absurd here (settles fh)))

/-- The handles change, and `fh` is the only one that is concerned. -/
theorem reopen (inOrder : HooksInOrder view)
    (point : view.point thread = some label)
    (allocated : fh < view.state.nextFileHandle)
    {openFiles : List FileHandle} {lock : Option (CallId × FileHandle)}
    (same : ∀ other, other ≠ fh →
      (other ∈ openFiles ↔ other ∈ view.state.openFiles))
    (sees : fh ∈ openFiles ∨ ∃ later, next = some later ∧ later.Settles fh)
    (settles : ∀ other, label.Settles other → other = fh)
    (fulfils : ∀ other, ¬ label.Fulfils other)
    (keeps : ∀ other hook, ¬ label.Removes other hook) :
    HooksInOrder (view.advance thread
      { view.state with openFiles, openFilesLock := lock } next) := by
  refine ⟨inOrder.fresh, inOrder.freshHook, ?_, inOrder.made, inOrder.held,
    ?_, ?_, ?_⟩
  · intro other member
    by_cases here : other = fh
    · rw [here]
      exact allocated
    · exact inOrder.allocated other ((same other here).mp member)
  · intro ino hook found
    obtain ⟨record, recorded, sameIno, kept⟩ := inOrder.entry ino hook found
    exact ⟨record, recorded, sameIno, kept.imp_right fun removing =>
      removing.advance point fun removes => absurd removes (keeps _ _)⟩
  · intro other terminal hook
    exact (inOrder.settled other terminal hook).advance point
      fun here => absurd here (fulfils other)
  · intro other bound
    by_cases here : other = fh
    · rw [here]
      rcases sees with member | ⟨later, here, settles⟩
      · exact Or.inl member
      · exact Or.inr (Or.inr (View.somewhere_advance_self here settles))
    · rcases inOrder.handle other bound with member | terminal | somewhere
      · exact Or.inl ((same other here).mpr member)
      · exact Or.inr (Or.inl terminal)
      · exact Or.inr (Or.inr (somewhere.advance point
          fun settled => absurd (settles other settled) here))

/-! ## What the steps keep -/

/-- A change of a channel that keeps the inode, does not unsettle it, and takes
the hook of no channel that is not settled. -/
theorem grows_updateChannel {fs after : StreamingFs} (fh : FileHandle)
    (change : StreamingChannel → StreamingChannel)
    (channels : after.channels = (fs.updateChannel fh change).channels)
    (next : after.nextFileHandle = fs.nextFileHandle)
    (ino : (change (fs.channels fh)).ino = (fs.channels fh).ino)
    (terminal : (fs.channels fh).isTerminal = true →
      (change (fs.channels fh)).isTerminal = true)
    (hooks : ∀ hook record, fs.hooks hook = some record →
      ∃ other, after.hooks hook = some other ∧
        other.channel = record.channel)
    (hook : ∀ hook, (fs.channels fh).commitHook = some hook →
      (change (fs.channels fh)).isTerminal = true ∨
        (change (fs.channels fh)).commitHook = some hook)
    (pending : ∀ other hook, (fs.channels other).commitHook = some hook →
      fs.pendingCommits (fs.channels other).ino = some hook →
        (fs.channels other).isTerminal = true ∨
          after.pendingCommits (fs.channels other).ino = some hook) :
    fs.Grows after := by
  have sameIno : ∀ other,
      (after.channels other).ino = (fs.channels other).ino := by
    intro other
    rw [channels]
    exact fs.look_updateChannel (·.ino) fh ino other
  have kept : ∀ other, (fs.channels other).isTerminal = true →
      (after.channels other).isTerminal = true := by
    intro other settled
    rw [channels]
    by_cases here : other = fh
    · subst here
      rw [StreamingFs.channels_updateChannel_self]
      exact terminal settled
    · rwa [StreamingFs.channels_updateChannel_of_ne _ _ here]
  have held : ∀ other otherHook,
      (fs.channels other).commitHook = some otherHook →
      (after.channels other).isTerminal = true ∨
        (after.channels other).commitHook = some otherHook := by
    intro other otherHook present
    rw [channels]
    by_cases here : other = fh
    · subst here
      rw [StreamingFs.channels_updateChannel_self]
      exact hook otherHook present
    · rw [StreamingFs.channels_updateChannel_of_ne _ _ here]
      exact Or.inr present
  refine ⟨Nat.le_of_eq next.symm, fun other _ => sameIno other,
    fun other _ => kept other, hooks, fun other otherHook _ =>
      held other otherHook, ?_⟩
  rintro other _ (settled | ⟨otherHook, present, registered⟩)
  · exact Or.inl (kept other settled)
  · rcases held other otherHook present with settled | present'
    · exact Or.inl settled
    · rcases pending other otherHook present registered with
        settled | registered'
      · exact Or.inl (kept other settled)
      · refine Or.inr ⟨otherHook, present', ?_⟩
        rw [sameIno other]
        exact registered'

theorem grows_putHook (inOrder : HooksInOrder view) (ino : Ino)
    (fh : FileHandle) :
    view.state.Grows (view.state.putHook ino fh) := by
  cases present : (view.state.channels fh).commitHook with
  | some hook =>
      rw [StreamingFs.putHook, present]
      exact .refl _
  | none =>
      have kept : ∀ target hook,
          view.state.pendingCommits target = some hook →
          (view.state.putHook ino fh).pendingCommits target = some hook :=
        fun _ _ => pending_putHook
      rw [StreamingFs.putHook, present] at kept ⊢
      refine grows_updateChannel fh (fun channel =>
        { channel with commitHook := some view.state.nextHook })
        rfl rfl rfl id ?_ ?_ ?_
      · intro hook record found
        have different : hook ≠ view.state.nextHook := by
          rintro rfl
          rw [inOrder.freshHook _ (Nat.le_refl _)] at found
          cases found
        exact ⟨record, (Function.update_of_ne different _ _).trans found, rfl⟩
      · intro hook held
        rw [present] at held
        cases held
      · exact fun other hook _ registered => Or.inr (kept _ hook registered)

theorem grows_takeHook (inOrder : HooksInOrder view) {hook : HookId}
    (present : (view.state.channels fh).commitHook = some hook)
    (settled : (view.state.channels fh).isTerminal = true)
    (result : CommitResult) :
    view.state.Grows (view.state.takeHook fh result).1 := by
  rw [StreamingFs.takeHook, present]
  refine grows_updateChannel fh (fun channel =>
    { channel with commitHook := none, hookLocked := true })
    rfl rfl rfl id ?_ (fun _ _ => Or.inl settled)
    (fun _ _ _ registered => Or.inr registered)
  intro other record found
  by_cases taken : other = hook
  · subst taken
    obtain rfl :=
      Option.some.inj ((inOrder.held fh other present).symm.trans found)
    exact ⟨_, Function.update_self _ _ _, rfl⟩
  · exact ⟨record, (Function.update_of_ne taken _ _).trans found, rfl⟩

theorem grows_removePending (inOrder : HooksInOrder view) (ino : Ino)
    {hook : HookId} {record : CommitHook}
    (made : view.state.hooks hook = some record)
    (own : record.channel = fh)
    (settled : (view.state.channels fh).isTerminal = true) :
    view.state.Grows (view.state.removePending ino fh hook) := by
  refine grows_updateChannel fh
    (fun channel => { channel with hookLocked := false }) rfl rfl rfl id
    (fun _ record found => ⟨record, found, rfl⟩)
    (fun _ => Or.inr) ?_
  intro other otherHook present registered
  by_cases same : otherHook = hook
  · subst same
    have found := inOrder.held other otherHook present
    rw [made] at found
    obtain rfl := Option.some.inj found
    obtain rfl : other = fh := own
    exact Or.inl settled
  · refine Or.inr ?_
    simp only [StreamingFs.removePending]
    split <;> rename_i removed
    · have elsewhere : (view.state.channels other).ino ≠ ino := by
        rintro rfl
        rw [removed] at registered
        exact same (Option.some.inj registered).symm
      rwa [Function.update_of_ne elsewhere]
    · exact registered

theorem grows_settle {change : StreamingChannel → StreamingChannel}
    (ino : (change (view.state.channels fh)).ino =
      (view.state.channels fh).ino)
    (terminal : (change (view.state.channels fh)).isTerminal = true) :
    view.state.Grows (view.state.updateChannel fh change) :=
  grows_updateChannel fh change rfl rfl ino (fun _ => terminal)
    (fun _ record found => ⟨record, found, rfl⟩) (fun _ _ => Or.inl terminal)
    fun _ _ _ registered => Or.inr registered

end HooksInOrder

end HfMount.Streaming
