import HfMount.Streaming.Hooks

/-!
# The shared programs keep the hooks in order

Each program is safe for the protocol of the hooks, whatever it is followed by.
What a program has to know is only that its channel was set up for its inode,
which nothing takes back.
-/

namespace HfMount.Streaming

open SlashPath Inode Interleaving Program

/-- The channel was set up, for this inode. -/
def StreamingFs.SetUp (fs : StreamingFs) (ino : Ino) (fh : FileHandle) : Prop :=
  fh < fs.nextFileHandle ∧ (fs.channels fh).ino = ino

theorem StreamingFs.SetUp.grows {before after : StreamingFs} {ino : Ino}
    {fh : FileHandle} (setUp : before.SetUp ino fh)
    (grows : before.Grows after) : after.SetUp ino fh :=
  ⟨Nat.lt_of_lt_of_le setUp.1 grows.next,
    (grows.ino fh setUp.1).trans setUp.2⟩

/-- Places where no fulfilment is under way. -/
def Place.isOrdinary : Place → Bool
  | .checkTerminal _ | .takeHook _ | .setCommitted _ | .removePending _ _ =>
      false
  | _ => true

theorem not_fulfils {label : Label}
    (ordinary : label.place.isOrdinary = true) (fh : FileHandle) :
    ¬ label.Fulfils fh := by
  rintro (here | here | here) <;> simp [here, Place.isOrdinary] at ordinary

theorem not_removes {label : Label}
    (ordinary : label.place.isOrdinary = true) (fh : FileHandle)
    (hook : HookId) : ¬ label.Removes fh hook := by
  intro here
  simp [show label.place = _ from here, Place.isOrdinary] at ordinary

theorem removesOwn_of_pending {label : Label} {before after : StreamingFs}
    (same : after.pendingCommits = before.pendingCommits) :
    RemovesOwn label before after := by
  intro ino hook found removed
  exact absurd ((congrFun same ino).trans found) removed

/-- Whatever the call does next, it sees to its handle, unless that is
settled. -/
def Onward (fs : StreamingFs) (caller : Caller) (next : Option Label) : Prop :=
  ∀ fh, caller.Settles fh →
    fs.Settled fh ∨ ∃ later, next = some later ∧ later.Settles fh

theorem Onward.goesOn {fs : StreamingFs} {caller : Caller}
    {next : Option Label} (onward : Onward fs caller next) (place : Place) :
    GoesOn fs ⟨caller, place⟩ next :=
  fun fh settles => onward fh settles.1

theorem Onward.grows {before after : StreamingFs} {caller : Caller}
    {next : Option Label} (onward : Onward before caller next)
    (grows : before.Grows after) : Onward after caller next :=
  fun fh settles => (onward fh settles).imp_left (·.grows grows)

theorem onward_label (fs : StreamingFs) (caller : Caller) {place : Place}
    (working : place.isOutside = false) :
    Onward fs caller (some ⟨caller, place⟩) :=
  fun _ settles => Or.inr ⟨_, rfl, settles, working⟩

/-- A call that has no handle to see to. -/
def Caller.IsIdle (caller : Caller) : Prop := ∀ fh, ¬ caller.Settles fh

theorem Caller.IsIdle.onward {caller : Caller} (idle : caller.IsIdle)
    (fs : StreamingFs) (next : Option Label) : Onward fs caller next :=
  fun fh settles => absurd settles (idle fh)

namespace StreamingFs

theorem SameHooks.covered {before after : StreamingFs}
    (same : before.SameHooks after) (fh : FileHandle) :
    after.Covered fh ↔ before.Covered fh := by
  unfold Covered
  rw [same.handed, same.openFiles, same.lock]

theorem SameHooks.relies {before after : StreamingFs}
    (same : before.SameHooks after) (strict : Prop) (thread : CallId) :
    Relies strict thread before after := by
  refine ⟨same.grows, ?_, fun _ fh _ => (same.covered fh).mpr⟩
  intro fh held
  rw [same.lock]
  exact held

theorem SameHooks.promises {before after : StreamingFs}
    (same : before.SameHooks after) (strict : Prop) (thread : CallId)
    (label : Label) : Promises strict thread label before after := by
  refine ⟨same.grows, removesOwn_of_pending same.pending, ?_,
    fun _ fh _ => (same.covered fh).mpr⟩
  intro other fh _ held
  rw [same.lock]
  exact held

end StreamingFs

section Rules

variable {strict : Prop} {thread : CallId} {α β : Type}
  {post : α → View Label StreamingFs → Prop} {view : View Label StreamingFs}
  {caller : Caller} {place : Place}

/-- The thread that moves keeps what it relies on. -/
theorem Promises.relies {label : Label} {before after : StreamingFs}
    (promised : Promises strict thread label before after)
    (lock : ∀ fh, before.openFilesLock = some (thread, fh) →
      after.openFilesLock = some (thread, fh)) :
    Relies strict thread before after :=
  ⟨promised.grows, lock, promised.covered⟩

/-- A step that the hooks do not depend on. -/
theorem perform_goesOn {ready : StreamingFs → Bool}
    {action : Outcome → StreamingFs → StreamingFs × β} {rest : β → Prog α}
    (ordinary : place.isOrdinary = true)
    (unchanged : ∀ now outcome, HooksInOrder now →
      view.state.Grows now.state →
        now.state.SameHooks (action outcome now.state).1)
    (goesOn : ∀ now outcome, view.state.Grows now →
      GoesOn now ⟨caller, place⟩ (rest (action outcome now).2).label?)
    (continues : ∀ now outcome, HooksInOrder now →
      Relies strict thread view.state now.state → ready now.state = true →
      ∀ after : View Label StreamingFs,
        Relies strict thread now.state after.state →
        Safe (hookProtocol strict) thread post
          (rest (action outcome now.state).2) after) :
    Safe (hookProtocol strict) thread post
      ((perform ⟨caller, place⟩ ready action).bind rest) view := by
  apply Safe.perform_bind
  intro now relies inOrder point _ isReady outcome
  have same := unchanged now outcome inOrder relies.grows
  refine ⟨?_, same.promises strict thread _, ?_⟩
  · exact HooksInOrder.advance_same inOrder point same
      (goesOn _ _ relies.grows) (not_fulfils ordinary) (not_removes ordinary)
  · exact continues now outcome inOrder relies isReady _
      (same.relies strict thread)

theorem perform_same {ready : StreamingFs → Bool}
    {action : Outcome → StreamingFs → StreamingFs × β} {rest : β → Prog α}
    (ordinary : place.isOrdinary = true)
    (unchanged : ∀ now outcome, HooksInOrder now →
      view.state.Grows now.state →
        now.state.SameHooks (action outcome now.state).1)
    (onward : ∀ now outcome, view.state.Grows now →
      Onward now caller (rest (action outcome now).2).label?)
    (continues : ∀ now outcome, HooksInOrder now →
      Relies strict thread view.state now.state → ready now.state = true →
      ∀ after : View Label StreamingFs,
        Relies strict thread now.state after.state →
        Safe (hookProtocol strict) thread post
          (rest (action outcome now.state).2) after) :
    Safe (hookProtocol strict) thread post
      ((perform ⟨caller, place⟩ ready action).bind rest) view :=
  perform_goesOn ordinary unchanged
    (fun now outcome grows => (onward now outcome grows).goesOn place) continues

theorem read_same {look : StreamingFs → β} {rest : β → Prog α}
    (ordinary : place.isOrdinary = true)
    (onward : ∀ now, view.state.Grows now →
      Onward now caller (rest (look now)).label?)
    (continues : ∀ now : View Label StreamingFs, HooksInOrder now →
      Relies strict thread view.state now.state →
      ∀ after : View Label StreamingFs,
        Relies strict thread now.state after.state →
        Safe (hookProtocol strict) thread post (rest (look now.state)) after) :
    Safe (hookProtocol strict) thread post
      ((Program.read ⟨caller, place⟩ look).bind rest) view :=
  perform_same ordinary (fun _ _ _ _ => .refl _)
    (fun now _ grows => onward now grows)
    fun now _ inOrder relies _ => continues now inOrder relies

theorem modify_same {action : StreamingFs → StreamingFs}
    {rest : Unit → Prog α} (ordinary : place.isOrdinary = true)
    (unchanged : ∀ now : View Label StreamingFs, HooksInOrder now →
      view.state.Grows now.state → now.state.SameHooks (action now.state))
    (onward : ∀ now, view.state.Grows now →
      Onward now caller (rest ()).label?)
    (continues : ∀ after : View Label StreamingFs,
      Relies strict thread view.state after.state →
        Safe (hookProtocol strict) thread post (rest ()) after) :
    Safe (hookProtocol strict) thread post
      ((Program.modify ⟨caller, place⟩ action).bind rest) view :=
  perform_same ordinary (fun now _ inOrder grows => unchanged now inOrder grows)
    (fun now _ grows => onward now grows)
    fun _ _ _ relies _ _ later => continues _ (relies.trans later)

/-- The call does not see to its handle at this place. -/
theorem modify_outside {action : StreamingFs → StreamingFs}
    {rest : Unit → Prog α} (ordinary : place.isOrdinary = true)
    (outside : place.isOutside = true)
    (unchanged : ∀ now : View Label StreamingFs, HooksInOrder now →
      view.state.Grows now.state → now.state.SameHooks (action now.state))
    (continues : ∀ after : View Label StreamingFs,
      Relies strict thread view.state after.state →
        Safe (hookProtocol strict) thread post (rest ()) after) :
    Safe (hookProtocol strict) thread post
      ((Program.modify ⟨caller, place⟩ action).bind rest) view := by
  apply perform_goesOn ordinary
  · exact fun now _ inOrder grows => unchanged now inOrder grows
  · rintro now _ _ fh ⟨_, inside⟩
    rw [outside] at inside
    cases inside
  · exact fun _ _ _ relies _ _ later => continues _ (relies.trans later)

end Rules

/-! ## Hooks -/

namespace StreamingFs

/-- Taking a hook or removing its entry leaves the handles alone. -/
theorem covered_of_grows {before after : StreamingFs}
    (grows : before.Grows after) (openFiles : after.openFiles = before.openFiles)
    (lock : after.openFilesLock = before.openFilesLock) {fh : FileHandle}
    (allocated : fh < before.nextFileHandle) (covered : before.Covered fh) :
    after.Covered fh := by
  unfold Covered
  rw [openFiles, lock]
  exact covered.imp_right fun kept => kept.imp_left (grows.handed fh allocated)

theorem promises_of_grows {before after : StreamingFs} {strict : Prop}
    {thread : CallId} {label : Label} (grows : before.Grows after)
    (removes : RemovesOwn label before after)
    (openFiles : after.openFiles = before.openFiles)
    (lock : after.openFilesLock = before.openFilesLock) :
    Promises strict thread label before after := by
  refine ⟨grows, removes, ?_, fun _ _ => covered_of_grows grows openFiles lock⟩
  intro other fh _ held
  rw [lock]
  exact held

theorem putHook_openFiles (fs : StreamingFs) (ino : Ino) (fh : FileHandle) :
    (fs.putHook ino fh).openFiles = fs.openFiles := by
  unfold putHook
  split <;> rfl

theorem putHook_openFilesLock (fs : StreamingFs) (ino : Ino)
    (fh : FileHandle) :
    (fs.putHook ino fh).openFilesLock = fs.openFilesLock := by
  unfold putHook
  split <;> rfl

theorem takeHook_openFiles (fs : StreamingFs) (fh : FileHandle)
    (result : CommitResult) :
    (fs.takeHook fh result).1.openFiles = fs.openFiles := by
  unfold takeHook
  split <;> rfl

theorem takeHook_openFilesLock (fs : StreamingFs) (fh : FileHandle)
    (result : CommitResult) :
    (fs.takeHook fh result).1.openFilesLock = fs.openFilesLock := by
  unfold takeHook
  split <;> rfl

theorem takeHook_pendingCommits (fs : StreamingFs) (fh : FileHandle)
    (result : CommitResult) :
    (fs.takeHook fh result).1.pendingCommits = fs.pendingCommits := by
  unfold takeHook
  split <;> rfl

/-- Only the entry of the hook itself goes. -/
theorem removePending_kept {fs : StreamingFs} {ino target : Ino}
    {fh : FileHandle} {hook other : HookId}
    (found : fs.pendingCommits target = some other) (different : other ≠ hook) :
    (fs.removePending ino fh hook).pendingCommits target = some other := by
  simp only [removePending]
  split <;> rename_i registered
  · have elsewhere : target ≠ ino := by
      rintro rfl
      rw [registered] at found
      exact different (Option.some.inj found).symm
    rwa [Function.update_of_ne elsewhere]
  · exact found

theorem channels_putHook {fs : StreamingFs} {fh : FileHandle}
    (free : (fs.channels fh).commitHook = none) (ino : Ino) :
    (fs.putHook ino fh).channels fh =
      { fs.channels fh with commitHook := some fs.nextHook } := by
  unfold putHook
  rw [free]
  exact fs.channels_updateChannel_self fh fun channel =>
    { channel with commitHook := some fs.nextHook }

theorem pendingCommits_putHook {fs : StreamingFs} {fh : FileHandle} {ino : Ino}
    (free : (fs.channels fh).commitHook = none)
    (unclaimed : fs.pendingCommits ino = none) :
    (fs.putHook ino fh).pendingCommits ino = some fs.nextHook := by
  unfold putHook
  rw [free]
  simp [unclaimed]

/-- A channel whose hook can be registered has it registered. -/
theorem handed_putHook {fs : StreamingFs} {fh : FileHandle}
    (registrable : fs.Registrable fh) :
    (fs.putHook (fs.channels fh).ino fh).Handed fh := by
  cases present : (fs.channels fh).commitHook with
  | some hook =>
      have unchanged : fs.putHook (fs.channels fh).ino fh = fs := by
        simp [putHook, present]
      rw [unchanged]
      rcases registrable with handed | ⟨missing, _⟩
      · exact handed
      · rw [present] at missing
        cases missing
  | none =>
      unfold Handed
      rw [channels_putHook present]
      rcases registrable with (settled | ⟨hook, held, _⟩) | ⟨_, free⟩
      · exact Or.inl settled
      · rw [present] at held
        cases held
      · exact Or.inr ⟨fs.nextHook, rfl, pendingCommits_putHook present free⟩

end StreamingFs

section Parts

variable {strict : Prop} {thread : CallId} {α : Type}
  {post : α → View Label StreamingFs → Prop} {view : View Label StreamingFs}
  {caller : Caller} {ino : Ino} {fh : FileHandle}

theorem fulfill_safe {result : CommitResult} {rest : Unit → Prog α}
    (setUp : view.state.SetUp ino fh)
    (settled : (view.state.channels fh).isTerminal = true)
    (onward : Onward view.state caller (rest ()).label?)
    (continues : ∀ after : View Label StreamingFs,
      Relies strict thread view.state after.state →
        Safe (hookProtocol strict) thread post (rest ()) after) :
    Safe (hookProtocol strict) thread post
      ((fulfillCommitHook caller ino fh result).bind rest) view := by
  simp only [fulfillCommitHook, bind_eq, Program.bind_assoc]
  apply Safe.perform_bind
  intro now relies inOrder point _ _ _
  have known := setUp.grows relies.grows
  have settledNow := relies.grows.terminal fh setUp.1 settled
  cases present : (now.state.channels fh).commitHook with
  | none =>
      have nothing : now.state.takeHook fh result = (now.state, none) := by
        simp [StreamingFs.takeHook, present]
      rw [nothing]
      refine ⟨?_, (StreamingFs.SameHooks.refl _).promises strict thread _,
        continues _ relies⟩
      apply HooksInOrder.move inOrder point
        ((onward.grows relies.grows).goesOn _)
      · rintro other (here | here | here)
        · cases here
        · obtain rfl := Place.takeHook.inj here
          exact Or.inl fun _ => present
        · cases here
      · intro other hook here
        cases here
  | some hook =>
      have taken : (now.state.takeHook fh result).2 = some hook := by
        simp [StreamingFs.takeHook, present]
      have grown :=
        HooksInOrder.grows_takeHook inOrder present settledNow result
      have made : ∃ record,
          (now.state.takeHook fh result).1.hooks hook = some record ∧
            record.channel = fh := by
        rw [StreamingFs.takeHook, present]
        exact ⟨_, Function.update_self _ _ _, rfl⟩
      have promised : Promises strict thread ⟨caller, .takeHook fh⟩ now.state
          (now.state.takeHook fh result).1 :=
        StreamingFs.promises_of_grows grown
          (removesOwn_of_pending (StreamingFs.takeHook_pendingCommits _ _ _))
          (StreamingFs.takeHook_openFiles _ _ _)
          (StreamingFs.takeHook_openFilesLock _ _ _)
      have reliesTaken : Relies strict thread view.state
          (now.state.takeHook fh result).1 := by
        apply relies.trans
        apply promised.relies
        intro other held
        rw [StreamingFs.takeHook_openFilesLock]
        exact held
      rw [taken]
      refine ⟨HooksInOrder.takeHook inOrder point known.1 present, promised, ?_⟩
      apply Safe.modify_bind
      intro later laterRelies laterInOrder laterPoint _
      have reliesLater := reliesTaken.trans laterRelies
      have laterKnown := setUp.grows reliesLater.grows
      obtain ⟨record, recorded, sameChannel⟩ := made
      obtain ⟨kept, foundKept, keptChannel⟩ :=
        laterRelies.grows.hooks hook record recorded
      have removal := HooksInOrder.grows_removePending laterInOrder ino
        foundKept (keptChannel.trans sameChannel)
        (reliesLater.grows.terminal fh setUp.1 settled)
      have removed : Promises strict thread ⟨caller, .removePending fh hook⟩
          later.state (later.state.removePending ino fh hook) := by
        refine StreamingFs.promises_of_grows removal ?_ rfl rfl
        intro target other found gone
        have isHook : other = hook := by
          by_contra different
          exact gone (StreamingFs.removePending_kept found different)
        subst isHook
        refine ⟨kept, foundKept, ?_⟩
        rw [keptChannel, sameChannel]
        rfl
      refine ⟨?_, removed, continues _
        (reliesLater.trans (removed.relies fun _ => id))⟩
      exact HooksInOrder.removePending laterInOrder laterPoint laterKnown.1
        laterKnown.2 ((onward.grows reliesLater.grows).goesOn _)

/-- A release that may register its hook hands its channel over. -/
theorem install_safe {rest : Unit → Prog α}
    (setUp : view.state.SetUp ino fh)
    (onward : Onward view.state caller (rest ()).label?)
    (continues : ∀ after : View Label StreamingFs,
      Relies strict thread view.state after.state →
      (strict → caller = .release fh → after.state.Handed fh) →
        Safe (hookProtocol strict) thread post (rest ()) after) :
    Safe (hookProtocol strict) thread post
      ((installCommitHook caller ino fh).bind rest) view := by
  simp only [installCommitHook, bind_eq, Program.bind_assoc]
  apply Safe.perform_bind
  intro now relies inOrder point fits _ _
  have known := setUp.grows relies.grows
  have grown := HooksInOrder.grows_putHook inOrder ino fh
  have promised : Promises strict thread ⟨caller, .installHook fh⟩ now.state
      (now.state.putHook ino fh) := by
    refine StreamingFs.promises_of_grows grown ?_
      (StreamingFs.putHook_openFiles _ _ _)
      (StreamingFs.putHook_openFilesLock _ _ _)
    intro target hook found removed
    exact absurd (HooksInOrder.pending_putHook found) removed
  have installed : Relies strict thread view.state
      (now.state.putHook ino fh) := by
    apply relies.trans
    apply promised.relies
    intro other held
    rw [StreamingFs.putHook_openFilesLock]
    exact held
  have handed : strict → caller = .release fh →
      (now.state.putHook ino fh).Handed fh := by
    rintro holds rfl
    have registered := StreamingFs.handed_putHook (fits holds rfl fh rfl)
    rwa [known.2] at registered
  refine ⟨HooksInOrder.putHook inOrder point known.1 known.2, promised, ?_⟩
  apply Safe.read_bind
  intro later laterRelies laterInOrder laterPoint _
  have reliesLater := installed.trans laterRelies
  have laterKnown := setUp.grows reliesLater.grows
  have laterOnward := onward.grows reliesLater.grows
  have grownKnown := setUp.grows installed.grows
  have laterHanded : strict → caller = .release fh →
      later.state.Handed fh :=
    fun holds isRelease => laterRelies.grows.handed fh grownKnown.1
      (handed holds isRelease)
  cases reached : (later.state.channels fh).state.terminalResult with
  | none =>
      have unsettled : (later.state.channels fh).isTerminal = false := by
        simp [StreamingChannel.isTerminal, CommitState.isTerminal, reached]
      refine ⟨?_, (StreamingFs.SameHooks.refl _).promises strict thread _,
        continues _ reliesLater laterHanded⟩
      apply HooksInOrder.move laterInOrder laterPoint (laterOnward.goesOn _)
      · rintro other (here | here | here)
        · obtain rfl := Place.checkTerminal.inj here
          refine Or.inl fun settled => ?_
          rw [unsettled] at settled
          cases settled
        · cases here
        · cases here
      · intro other hook here
        cases here
  | some result =>
      have settled : (later.state.channels fh).isTerminal = true := by
        simp [StreamingChannel.isTerminal, CommitState.isTerminal, reached]
      refine ⟨?_, (StreamingFs.SameHooks.refl _).promises strict thread _, ?_⟩
      · apply HooksInOrder.move laterInOrder laterPoint
          ((onward_label later.state caller rfl).goesOn _)
        · rintro other (here | here | here)
          · obtain rfl := Place.checkTerminal.inj here
            exact Or.inr ⟨_, rfl, Or.inr (Or.inl rfl)⟩
          · cases here
          · cases here
        · intro other hook here
          cases here
      · apply fulfill_safe laterKnown settled laterOnward
        intro after lastRelies
        apply continues after (reliesLater.trans lastRelies)
        intro holds isRelease
        exact lastRelies.grows.handed fh laterKnown.1
          (laterHanded holds isRelease)

/-! ## Commits -/

/-- The next step finds the channel settled and fulfils its hook. -/
def FulfilsNext (fh : FileHandle) (next : Option Label) : Prop :=
  ∃ label, next = some label ∧ label.Fulfils fh

/-- A step after which the channel is settled. -/
theorem settle_safe {place : Place}
    {change : StreamingChannel → StreamingChannel} {rest : Unit → Prog α}
    (setUp : view.state.SetUp ino fh)
    (sameIno : ∀ channel, (change channel).ino = channel.ino)
    (sameHook : ∀ channel, (change channel).commitHook = channel.commitHook)
    (settled : ∀ channel, (change channel).isTerminal = true)
    (only : ∀ other, Label.Fulfils ⟨caller, place⟩ other → other = fh)
    (keeps : ∀ other hook, ¬ Label.Removes ⟨caller, place⟩ other hook)
    (goesOn : ∃ later, (rest ()).label? = some ⟨caller, later⟩ ∧
      later.isOutside = false)
    (fulfils : FulfilsNext fh (rest ()).label?)
    (continues : ∀ after : View Label StreamingFs,
      Relies strict thread view.state after.state →
      (after.state.channels fh).isTerminal = true →
        Safe (hookProtocol strict) thread post (rest ()) after) :
    Safe (hookProtocol strict) thread post
      ((Program.modify ⟨caller, place⟩ (·.updateChannel fh change)).bind rest)
      view := by
  apply Safe.modify_bind
  intro now relies inOrder point _
  have grown : now.state.Grows (now.state.updateChannel fh change) :=
    HooksInOrder.grows_settle (sameIno _) (settled _)
  have promised : Promises strict thread ⟨caller, place⟩ now.state
      (now.state.updateChannel fh change) :=
    StreamingFs.promises_of_grows grown (removesOwn_of_pending rfl) rfl rfl
  obtain ⟨later, isLater, working⟩ := goesOn
  refine ⟨?_, promised, ?_⟩
  · apply HooksInOrder.settle inOrder point (setUp.grows relies.grows).1
      (sameIno _) (sameHook _) (settled _) _ fulfils only keeps
    intro other _ settles
    exact ⟨_, isLater, settles.1, working⟩
  · apply continues _ (relies.trans (promised.relies fun _ => id))
    have reached := now.state.channels_updateChannel_self fh change
    exact (congrArg StreamingChannel.isTerminal reached).trans (settled _)

theorem commitToHub_safe {info : XetFileInfo} {rest : CommitResult → Prog α}
    (setUp : view.state.SetUp ino fh)
    (onward : ∀ value, Onward view.state caller (rest value).label?)
    (working : ∃ later, (rest (.ok ())).label? = some ⟨caller, later⟩ ∧
      later.isOutside = false)
    (fulfils : FulfilsNext fh (rest (.ok ())).label?)
    (continues : ∀ value (after : View Label StreamingFs),
      Relies strict thread view.state after.state →
        Safe (hookProtocol strict) thread post (rest value) after) :
    Safe (hookProtocol strict) thread post
      ((commitToHub caller ino fh info).bind rest) view := by
  simp only [commitToHub, bind_eq, Program.bind_assoc]
  apply read_same rfl
  · intro now grows
    cases (now.inodes.get ino).map
        fun entry => (entry.fullPath, entry.pendingDeletes) with
    | none => exact (onward _).grows grows
    | some entry => exact onward_label _ _ rfl
  intro now _ relies after later
  have reached := relies.trans later
  cases (now.state.inodes.get ino).map
      fun entry => (entry.fullPath, entry.pendingDeletes) with
  | none => exact continues _ _ reached
  | some entry =>
      simp only [Program.bind_assoc]
      apply perform_same rfl
      · intro now outcome _ _
        simp only [StreamingFs.batchOperations]
        split <;> exact .of_eq rfl rfl rfl rfl rfl rfl rfl
      · intro now outcome _
        cases (now.batchOperations fh
            (.addFile entry.1 info.hash :: entry.2.map .deleteFile)
            outcome).2 <;> exact onward_label _ _ rfl
      intro now outcome _ relies _ after later
      have told := (reached.trans relies).trans later
      cases (now.state.batchOperations fh
          (.addFile entry.1 info.hash :: entry.2.map .deleteFile) outcome).2 with
      | some errno =>
          simp only [Program.bind_assoc]
          apply modify_same rfl
          · intro now _ grows
            have known := setUp.grows (told.grows.trans grows)
            exact StreamingFs.sameHooks_updateChannel known.1 rfl rfl rfl
          · exact fun now grows => (onward _).grows (told.grows.trans grows)
          · exact fun after later => continues _ after (told.trans later)
      | none =>
          simp only [Program.bind_assoc]
          apply perform_same rfl
          · exact fun _ _ _ _ => .of_eq rfl rfl rfl rfl rfl rfl rfl
          · exact fun now outcome _ => onward_label _ _ rfl
          intro now outcome _ relies _ after later
          have applied := (told.trans relies).trans later
          refine settle_safe (setUp.grows applied.grows) (fun _ => rfl)
            (fun _ => rfl) (fun _ => rfl) ?_ ?_ working fulfils ?_
          · rintro other (here | here | here) <;> cases here
          · intro other hook here
            cases here
          · exact fun after later _ => continues _ after (applied.trans later)

theorem streamingCommit_safe {me : CallId} {rest : CommitResult → Prog α}
    (setUp : view.state.SetUp ino fh)
    (onward : ∀ value, Onward view.state caller (rest value).label?)
    (working : ∃ later, (rest (.ok ())).label? = some ⟨caller, later⟩ ∧
      later.isOutside = false)
    (fulfils : FulfilsNext fh (rest (.ok ())).label?)
    (continues : ∀ value (after : View Label StreamingFs),
      Relies strict thread view.state after.state →
        Safe (hookProtocol strict) thread post (rest value) after) :
    Safe (hookProtocol strict) thread post
      ((streamingCommit me caller ino fh).bind rest) view := by
  have toHub : ∀ (info : XetFileInfo) (now : View Label StreamingFs),
      Relies strict thread view.state now.state →
      Safe (hookProtocol strict) thread post
        ((commitToHub caller ino fh info).bind rest) now := by
    intro info now relies
    apply commitToHub_safe (setUp.grows relies.grows)
      (fun value => (onward value).grows relies.grows) working fulfils
    exact fun value after later => continues value after (relies.trans later)
  simp only [streamingCommit, bind_eq, Program.bind_assoc]
  apply read_same rfl
  · intro now grows
    cases now.skipCommit ino fh with
    | true => exact (onward _).grows grows
    | false => exact onward_label _ _ rfl
  intro now _ relies after later
  have started := relies.trans later
  cases now.state.skipCommit ino fh with
  | true => exact continues _ _ started
  | false =>
      simp only [Bool.false_eq_true, if_false, Program.bind_assoc]
      apply modify_same rfl
      · intro now _ grows
        exact StreamingFs.sameHooks_updateChannel
          (setUp.grows (started.grows.trans grows)).1 rfl rfl
          (CommitState.isTerminal_flip _)
      · exact fun now _ => onward_label _ _ rfl
      intro flipping later
      have flipped := started.trans later
      apply perform_same rfl
      · intro now _ _ grows
        have known := setUp.grows (flipped.grows.trans grows)
        simp only [StreamingFs.takePendingInfo]
        exact StreamingFs.sameHooks_updateChannel known.1 rfl rfl rfl
      · intro now outcome _
        cases (now.takePendingInfo fh).2 <;> exact onward_label _ _ rfl
      intro now _ _ relies _ after later
      have taken := (flipped.trans relies).trans later
      cases (now.state.takePendingInfo fh).2 with
      | some info => exact toHub info after taken
      | none =>
          simp only [Program.bind_assoc]
          apply perform_same rfl
          · intro now _ _ grows
            have known := setUp.grows (taken.grows.trans grows)
            simp only [StreamingFs.sendFinish]
            split
            · exact .refl _
            · dsimp only
              exact StreamingFs.sameHooks_updateChannel known.1 rfl rfl rfl
          · intro now outcome _
            cases (now.sendFinish me fh).2 <;> exact onward_label _ _ rfl
          intro now _ _ relies _ after later
          have sent := (taken.trans relies).trans later
          cases (now.state.sendFinish me fh).2 with
          | true =>
              simp only [if_true, Program.bind_assoc]
              apply perform_same rfl
              · exact fun _ _ _ _ => .refl _
              · intro now outcome grows
                cases now.finishReply me fh with
                | ok info => exact onward_label _ _ rfl
                | error errno =>
                    exact (onward _).grows (sent.grows.trans grows)
              intro now _ _ relies _ after later
              have replied := (sent.trans relies).trans later
              cases now.state.finishReply me fh with
              | ok info => exact toHub info after replied
              | error errno => exact continues _ _ replied
          | false =>
              simp only [Bool.false_eq_true, if_false, Program.bind_assoc]
              apply read_same rfl
              · exact fun now grows =>
                  (onward _).grows (sent.grows.trans grows)
              · intro now _ relies after later
                exact continues _ _ ((sent.trans relies).trans later)

theorem lock_safe {me : CallId} {target : Ino} {rest : Unit → Prog α}
    (onward : Onward view.state caller (rest ()).label?)
    (continues : ∀ after : View Label StreamingFs,
      Relies strict thread view.state after.state →
        Safe (hookProtocol strict) thread post (rest ()) after) :
    Safe (hookProtocol strict) thread post
      ((lockStaging me caller target).bind rest) view := by
  apply perform_same rfl
  · exact fun _ _ _ _ => .of_eq rfl rfl rfl rfl rfl rfl rfl
  · exact fun _ _ grows => onward.grows grows
  · exact fun _ _ _ relies _ _ later => continues _ (relies.trans later)

theorem unlock_safe {target : Ino} {rest : Unit → Prog α}
    (continues : ∀ after : View Label StreamingFs,
      Relies strict thread view.state after.state →
        Safe (hookProtocol strict) thread post (rest ()) after) :
    Safe (hookProtocol strict) thread post
      ((unlockStaging caller target).bind rest) view := by
  apply modify_outside rfl rfl
  · exact fun _ _ _ => .of_eq rfl rfl rfl rfl rfl rfl rfl
  · exact continues

/-- The end of a commit: the channel is settled and its hook fulfilled. -/
theorem setCommitted_safe {result : CommitResult} {rest : Unit → Prog α}
    (setUp : view.state.SetUp ino fh)
    (onward : Onward view.state caller (rest ()).label?)
    (continues : ∀ after : View Label StreamingFs,
      Relies strict thread view.state after.state →
      (after.state.channels fh).isTerminal = true →
        Safe (hookProtocol strict) thread post (rest ()) after) :
    Safe (hookProtocol strict) thread post
      ((Program.modify ⟨caller, .setCommitted fh⟩
          (·.setState fh .committed)).bind fun _ =>
        (fulfillCommitHook caller ino fh result).bind rest) view := by
  refine settle_safe setUp (fun _ => rfl) (fun _ => rfl) (fun _ => rfl) ?_ ?_
    ⟨_, rfl, rfl⟩ ⟨_, rfl, Or.inr (Or.inl rfl)⟩ ?_
  · rintro other (here | here | here)
    · cases here
    · cases here
    · exact (Place.setCommitted.inj here).symm
  · intro other hook here
    cases here
  · intro settling later settled
    apply fulfill_safe (setUp.grows later.grows) settled
      (onward.grows later.grows)
    intro after last
    apply continues after (later.trans last)
    exact last.grows.terminal fh (setUp.grows later.grows).1 settled

theorem commitStreamingNow_safe {me : CallId} {rest : CommitResult → Prog α}
    (setUp : view.state.SetUp ino fh)
    (inside : Onward view.state caller
      (some ⟨caller, .unlockStaging ino⟩))
    (continues : ∀ value (after : View Label StreamingFs),
      Relies strict thread view.state after.state →
        Safe (hookProtocol strict) thread post (rest value) after) :
    Safe (hookProtocol strict) thread post
      ((commitStreamingNow me caller ino fh).bind rest) view := by
  have leave : ∀ value (now : View Label StreamingFs),
      Relies strict thread view.state now.state →
      Safe (hookProtocol strict) thread post
        ((unlockStaging caller ino).bind fun _ => rest value) now := by
    intro value now relies
    apply unlock_safe
    exact fun after later => continues value after (relies.trans later)
  simp only [commitStreamingNow, bind_eq, Program.bind_assoc]
  apply lock_safe (onward_label _ _ rfl)
  intro locked relies
  apply read_same rfl
  · intro now grows
    cases (now.channels fh).error with
    | some errno => exact inside.grows (relies.grows.trans grows)
    | none => exact onward_label _ _ rfl
  intro now _ later after last
  have checked := (relies.trans later).trans last
  cases (now.state.channels fh).error with
  | some errno =>
      simp only [Program.bind_assoc]
      exact leave _ _ checked
  | none =>
      simp only [Program.bind_assoc]
      apply read_same rfl
      · intro now grows
        cases (now.channels fh).state.terminalResult with
        | some result => exact inside.grows (checked.grows.trans grows)
        | none => exact onward_label _ _ rfl
      intro now _ relies after later
      have reached := (checked.trans relies).trans later
      cases (now.state.channels fh).state.terminalResult with
      | some result =>
          simp only [Program.bind_assoc]
          exact leave _ _ reached
      | none =>
          simp only [Program.bind_assoc]
          apply install_safe (setUp.grows reached.grows)
            (onward_label _ _ rfl)
          intro committing later _
          have installed := reached.trans later
          apply streamingCommit_safe (setUp.grows installed.grows)
          · rintro (_ | _)
            · exact inside.grows installed.grows
            · exact onward_label _ _ rfl
          · exact ⟨_, rfl, rfl⟩
          · exact ⟨_, rfl, Or.inr (Or.inr rfl)⟩
          intro result settling later
          have committed := installed.trans later
          cases result with
          | error errno =>
              simp only [Program.bind_assoc]
              exact leave _ _ committed
          | ok _ =>
              simp only [Program.bind_assoc]
              apply setCommitted_safe (setUp.grows committed.grows)
                (inside.grows committed.grows)
              intro unlocking later _
              exact leave _ _ (committed.trans later)

theorem deferCommit_safe {rest : Unit → Prog α}
    (setUp : view.state.SetUp ino fh)
    (onward : Onward view.state caller (rest ()).label?)
    (continues : ∀ after : View Label StreamingFs,
      Relies strict thread view.state after.state →
        Safe (hookProtocol strict) thread post (rest ()) after) :
    Safe (hookProtocol strict) thread post
      ((deferCommit caller ino fh).bind rest) view := by
  simp only [deferCommit, bind_eq, Program.bind_assoc]
  apply install_safe setUp (onward_label _ _ rfl)
  intro installed relies _
  apply modify_same rfl
  · intro now _ grows
    exact StreamingFs.sameHooks_updateChannel
      (setUp.grows (relies.grows.trans grows)).1 rfl rfl
      (CommitState.isTerminal_demote _)
  · exact fun now grows => onward.grows (relies.grows.trans grows)
  · exact fun after later => continues after (relies.trans later)

end Parts

end HfMount.Streaming
