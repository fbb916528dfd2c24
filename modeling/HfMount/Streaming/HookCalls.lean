import HfMount.Streaming.HookSteps

/-!
# Every call keeps the hooks in order

A release holds the lock of the open handles until its hook is installed.  So a
handle that was open is handed over, unless another hook is registered for the
inode at that time.
-/

namespace HfMount.Streaming

open SlashPath Inode Interleaving Program

section Parts

variable {strict : Prop} {thread : CallId} {α : Type}
  {post : α → View Label StreamingFs → Prop} {view : View Label StreamingFs}
  {caller : Caller} {ino : Ino} {fh : FileHandle}

/-! ## Waiting for a commit -/

/-- A hook that has been waited for is not held any more. -/
theorem not_held_of_ready {now : View Label StreamingFs}
    (inOrder : HooksInOrder now) {hook : HookId}
    (ready : (now.state.published hook || !now.state.senderAlive hook) = true)
    (fh : FileHandle) : (now.state.channels fh).commitHook ≠ some hook := by
  intro held
  have made := inOrder.held fh hook held
  have allocated := inOrder.made hook _ made
  have unpublished : now.state.published hook = false := by
    simp [StreamingFs.published, made]
  have alive : now.state.senderAlive hook = true := by
    apply List.any_eq_true.mpr
    exact ⟨fh, List.mem_range.mpr allocated, decide_eq_true held⟩
  simp [unpublished, alive] at ready

/-- A channel that was handed over is settled after the wait. -/
theorem await_safe {rest : Except Errno Unit → Prog α} (idle : caller.IsIdle)
    (continues : ∀ value (after : View Label StreamingFs),
      Relies strict thread view.state after.state →
      (∀ fh, fh < view.state.nextFileHandle →
        (view.state.channels fh).ino = ino → view.state.Handed fh →
          (after.state.channels fh).isTerminal = true) →
        Safe (hookProtocol strict) thread post (rest value) after) :
    Safe (hookProtocol strict) thread post
      ((awaitPendingCommit caller ino).bind rest) view := by
  simp only [awaitPendingCommit, bind_eq, Program.bind_assoc]
  apply read_same rfl
  · exact fun now _ => idle.onward _ _
  intro now _ relies after later
  have reached := relies.trans later
  have handedNow : ∀ fh, fh < view.state.nextFileHandle →
      (view.state.channels fh).ino = ino → view.state.Handed fh →
        (now.state.channels fh).isTerminal = true ∨
          ∃ hook, (now.state.channels fh).commitHook = some hook ∧
            now.state.pendingCommits ino = some hook := by
    intro fh allocated sameIno handed
    have kept := relies.grows.handed fh allocated handed
    unfold StreamingFs.Handed at kept
    rwa [relies.grows.ino fh allocated, sameIno] at kept
  have before : ∀ fh, fh < view.state.nextFileHandle →
      fh < now.state.nextFileHandle :=
    fun fh allocated => Nat.lt_of_lt_of_le allocated relies.grows.next
  cases registered : now.state.pendingCommits ino with
  | none =>
      apply continues _ _ reached
      intro fh allocated sameIno handed
      rcases handedNow fh allocated sameIno handed with
        settled | ⟨hook, _, found⟩
      · exact later.grows.terminal fh (before fh allocated) settled
      · rw [registered] at found
        cases found
  | some hook =>
      apply perform_same rfl
      · exact fun _ _ _ _ => .refl _
      · exact fun now _ _ => idle.onward _ _
      intro waited _ inOrder waiting ready after last
      apply continues _ _ ((reached.trans waiting).trans last)
      intro fh allocated sameIno handed
      have onward := (later.trans waiting).grows
      have settled : (waited.state.channels fh).isTerminal = true := by
        rcases handedNow fh allocated sameIno handed with
          settled | ⟨other, held, found⟩
        · exact onward.terminal fh (before fh allocated) settled
        · obtain rfl := Option.some.inj (registered.symm.trans found)
          apply (onward.hook fh hook (before fh allocated) held).resolve_right
          exact not_held_of_ready inOrder ready fh
      exact last.grows.terminal fh
        (Nat.lt_of_lt_of_le (before fh allocated) onward.next) settled

/-! ## Write, flush and link -/

theorem write_safe {offset : Nat} {data : Bytes}
    {post : Reply → View Label StreamingFs → Prop}
    (finish : ∀ reply now, post reply now) :
    Safe (hookProtocol strict) thread post (write fh offset data) view := by
  have idle : (Caller.write fh).IsIdle := fun _ settles => settles
  have done : ∀ reply (now : View Label StreamingFs),
      Safe (hookProtocol strict) thread post (.done reply : Prog Reply) now :=
    fun reply _ => Safe.done fun now _ _ => finish reply now
  simp only [write, bind_eq]
  apply perform_same rfl
  · exact fun _ _ _ _ => .refl _
  · exact fun now _ _ => idle.onward _ _
  intro now _ inOrder _ _ after later
  by_cases isOpen : fh ∈ now.state.openFiles
  case neg =>
    simp only [isOpen, decide_false, Bool.not_false, if_true]
    exact done _ _
  have allocated := inOrder.allocated fh isOpen
  have found := Nat.lt_of_lt_of_le allocated later.grows.next
  simp only [isOpen, decide_true, Bool.not_true, Bool.false_eq_true, if_false]
  apply read_same rfl
  · exact fun now _ => idle.onward _ _
  intro now _ relies after later
  have checked := (relies.trans later).grows
  cases (now.state.channels fh).error with
  | some errno => exact done _ _
  | none =>
      dsimp only
      apply read_same rfl
      · exact fun now _ => idle.onward _ _
      intro now _ relies after later
      have looked := checked.trans (relies.trans later).grows
      split
      · exact done _ _
      apply perform_same rfl
      · intro now _ _ grows
        have known := Nat.lt_of_lt_of_le found (looked.trans grows).next
        simp only [StreamingFs.reserveSlot]
        split
        · exact .refl _
        · dsimp only
          exact StreamingFs.sameHooks_updateChannel known rfl rfl rfl
      · exact fun now _ _ => idle.onward _ _
      intro now _ _ relies _ after later
      have reserved := looked.trans (relies.trans later).grows
      split
      · exact done _ _
      apply perform_same rfl
      · intro now _ _ grows
        have known := Nat.lt_of_lt_of_le found (reserved.trans grows).next
        simp only [StreamingFs.enqueue]
        split
        all_goals
          dsimp only
          exact StreamingFs.sameHooks_updateChannel known rfl rfl rfl
      · exact fun now _ _ => idle.onward _ _
      intro now _ _ relies _ after later
      have sent := reserved.trans (relies.trans later).grows
      split
      · exact done _ _
      apply modify_same rfl
      · intro now _ grows
        have known := Nat.lt_of_lt_of_le found (sent.trans grows).next
        exact StreamingFs.sameHooks_updateChannel known rfl rfl rfl
      · exact fun now _ => idle.onward _ _
      intro after _
      apply modify_same rfl
      · exact fun _ _ _ => .of_eq rfl rfl rfl rfl rfl rfl rfl
      · exact fun now _ => idle.onward _ _
      · exact fun after _ => done _ _

theorem flush_safe {me : CallId} {pid : Option Nat} {rest : Reply → Prog α}
    (continues : ∀ value (after : View Label StreamingFs),
      Relies strict thread view.state after.state →
        Safe (hookProtocol strict) thread post (rest value) after) :
    Safe (hookProtocol strict) thread post
      ((flush me fh pid).bind rest) view := by
  have idle : (Caller.flush fh).IsIdle := fun _ settles => settles
  simp only [flush, findStreaming, bind_eq, Program.bind_assoc]
  apply perform_same rfl
  · exact fun _ _ _ _ => .refl _
  · exact fun now _ _ => idle.onward _ _
  intro now _ inOrder relies _ after later
  have found := relies.trans later
  by_cases isOpen : fh ∈ now.state.openFiles
  case neg =>
    rw [if_neg isOpen]
    exact continues _ _ found
  rw [if_pos isOpen]
  have setUp : after.state.SetUp (now.state.channels fh).ino fh :=
    StreamingFs.SetUp.grows ⟨inOrder.allocated fh isOpen, rfl⟩ later.grows
  simp only [Program.bind_assoc]
  apply read_same rfl
  · exact fun now _ => idle.onward _ _
  intro now _ relies checking later
  have checked := relies.trans later
  cases (now.state.channels fh).error with
  | some errno => exact continues _ _ (found.trans checked)
  | none =>
      simp only [Program.bind_assoc]
      apply read_same rfl
      · exact fun now _ => idle.onward _ _
      intro now _ relies looking later
      have looked := checked.trans (relies.trans later)
      cases (now.state.channels fh).state.terminalResult with
      | some result => exact continues _ _ (found.trans looked)
      | none =>
          simp only [Program.bind_assoc]
          apply perform_same rfl
          · exact fun _ _ _ _ => .refl _
          · exact fun now _ _ => idle.onward _ _
          intro now outcome _ relies _ deciding later
          have decided := looked.trans (relies.trans later)
          cases otherProcess (now.state.channels fh).openPid pid outcome with
          | true =>
              simp only [if_true, Program.bind_assoc]
              apply deferCommit_safe (setUp.grows decided.grows)
                (idle.onward _ _)
              intro after last
              exact continues _ _ (found.trans (decided.trans last))
          | false =>
              simp only [Bool.false_eq_true, if_false, Program.bind_assoc]
              apply read_same rfl
              · exact fun now _ => idle.onward _ _
              intro now _ relies counting later
              have counted := decided.trans (relies.trans later)
              split
              · simp only [Program.bind_assoc]
                apply deferCommit_safe (setUp.grows counted.grows)
                  (idle.onward _ _)
                intro after last
                exact continues _ _ (found.trans (counted.trans last))
              · simp only [Program.bind_assoc]
                apply commitStreamingNow_safe (setUp.grows counted.grows)
                  (idle.onward _ _)
                intro value after last
                exact continues _ _ (found.trans (counted.trans last))

/-- The channel that the scan finds was set up for the inode. -/
theorem streamingChannelFor_safe {rest : Option FileHandle → Prog α}
    (idle : caller.IsIdle)
    (continues : ∀ value (after : View Label StreamingFs),
      Relies strict thread view.state after.state →
      (∀ fh ∈ value, after.state.SetUp ino fh) →
        Safe (hookProtocol strict) thread post (rest value) after) :
    Safe (hookProtocol strict) thread post
      ((streamingChannelFor caller ino).bind rest) view := by
  simp only [streamingChannelFor, bind_eq, Program.bind_assoc]
  apply read_same rfl
  · exact fun now _ => idle.onward _ _
  intro now _ relies after later
  have reached := relies.trans later
  cases (now.state.inodes.get ino).map (·.dirtyGeneration) with
  | none => exact continues _ _ reached (fun _ isNone => by cases isNone)
  | some generation =>
      apply perform_same rfl
      · exact fun _ _ _ _ => .refl _
      · exact fun now _ _ => idle.onward _ _
      intro now outcome inOrder relies _ after later
      apply continues _ _ (reached.trans (relies.trans later))
      intro fh found
      have active : fh ∈ now.state.activeHandles ino generation := by
        unfold StreamingFs.firstActive at found
        split at found
        · obtain rfl := Option.some.inj found
          assumption
        · exact List.mem_of_mem_head? found
      obtain ⟨isOpen, owns⟩ := List.mem_filter.mp active
      simp only [Bool.and_eq_true, decide_eq_true_eq] at owns
      exact StreamingFs.SetUp.grows
        ⟨inOrder.allocated fh isOpen, owns.1.1⟩ later.grows

theorem loadChildren_safe {rest : Except Errno Unit → Prog α}
    (idle : caller.IsIdle)
    (continues : ∀ value (after : View Label StreamingFs),
      Relies strict thread view.state after.state →
        Safe (hookProtocol strict) thread post (rest value) after) :
    Safe (hookProtocol strict) thread post
      ((loadChildren caller).bind rest) view := by
  apply perform_same rfl
  · exact fun _ _ _ _ => .refl _
  · exact fun now _ _ => idle.onward _ _
  · exact fun _ _ _ relies _ _ later => continues _ _ (relies.trans later)

theorem link_safe {me : CallId} {post : Reply → View Label StreamingFs → Prop}
    (finish : ∀ reply now, post reply now) :
    Safe (hookProtocol strict) thread post (link me ino) view := by
  have idle : (Caller.link ino).IsIdle := fun _ settles => settles
  have done : ∀ reply (now : View Label StreamingFs),
      Safe (hookProtocol strict) thread post (.done reply : Prog Reply) now :=
    fun reply _ => Safe.done fun now _ _ => finish reply now
  simp only [link, bind_eq]
  apply read_same rfl
  · exact fun now _ => idle.onward _ _
  intro now _ _ after _
  split
  · exact done _ _
  · exact done _ _
  apply streamingChannelFor_safe idle
  intro active after _ setUp
  cases active with
  | none => exact done _ _
  | some fh =>
      dsimp only
      apply loadChildren_safe idle
      intro loaded after later
      cases loaded with
      | error errno => exact done _ _
      | ok _ =>
          have known := (setUp fh rfl).grows later.grows
          apply commitStreamingNow_safe known (idle.onward _ _)
          exact fun value after _ => done _ _

/-! ## Release -/

theorem onward_of_settled {fs : StreamingFs} (settled : fs.Settled fh)
    (next : Option Label) : Onward fs (.release fh) next :=
  fun _ same => Or.inl (same ▸ settled)

theorem commitWithRetry_safe {me : CallId} {rest : CommitResult → Prog α}
    (setUp : view.state.SetUp ino fh)
    (working : ∀ value, ∃ later,
      (rest value).label? = some ⟨caller, later⟩ ∧ later.isOutside = false)
    (fulfils : FulfilsNext fh (rest (.ok ())).label?)
    (continues : ∀ value (after : View Label StreamingFs),
      Relies strict thread view.state after.state →
        Safe (hookProtocol strict) thread post (rest value) after) :
    Safe (hookProtocol strict) thread post
      ((commitWithRetry me caller ino fh).bind rest) view := by
  have onward : ∀ (fs : StreamingFs) value,
      Onward fs caller (rest value).label? := by
    intro fs value
    obtain ⟨later, isLater, inside⟩ := working value
    rw [isLater]
    exact onward_label fs caller inside
  simp only [commitWithRetry, bind_eq, Program.bind_assoc]
  apply streamingCommit_safe setUp
  · rintro (errno | _)
    · exact onward_label _ _ rfl
    · exact onward _ _
  · exact working _
  · exact fulfils
  intro result after relies
  cases result with
  | ok _ => exact continues _ _ relies
  | error errno =>
      simp only [Program.bind_assoc]
      apply read_same rfl
      · intro now _
        split
        · exact onward_label _ _ rfl
        · exact onward _ _
      intro now _ later after last
      have retrying := (relies.trans later).trans last
      split
      · apply streamingCommit_safe (setUp.grows retrying.grows)
          (onward _) (working _) fulfils
        exact fun value after later => continues value after
          (retrying.trans later)
      · exact continues _ _ retrying

/-- The channel is settled, and its hook is fulfilled next. -/
theorem settleCommit_safe {result : CommitResult} {rest : Unit → Prog α}
    (setUp : view.state.SetUp ino fh)
    (onward : ∀ now : StreamingFs, now.Settled fh →
      Onward now (.release fh) (rest ()).label?)
    (continues : ∀ after : View Label StreamingFs,
      Relies strict thread view.state after.state →
        Safe (hookProtocol strict) thread post (rest ()) after) :
    Safe (hookProtocol strict) thread post
      ((settleCommit ino fh result).bind fun _ =>
        (fulfillCommitHook (.release fh) ino fh result).bind rest) view := by
  have fulfil : ∀ (now : View Label StreamingFs),
      Relies strict thread view.state now.state →
      (now.state.channels fh).isTerminal = true →
      Safe (hookProtocol strict) thread post
        ((fulfillCommitHook (.release fh) ino fh result).bind rest) now := by
    intro now relies terminal
    have known := setUp.grows relies.grows
    apply fulfill_safe known terminal (onward _ ⟨known.1, terminal⟩)
    exact fun after later => continues after (relies.trans later)
  cases result with
  | ok _ =>
      refine settle_safe setUp (fun _ => rfl) (fun _ => rfl) (fun _ => rfl)
        ?_ ?_ ⟨_, rfl, rfl⟩ ⟨_, rfl, Or.inr (Or.inl rfl)⟩ fulfil
      · rintro other (here | here | here)
        · cases here
        · cases here
        · exact (Place.setCommitted.inj here).symm
      · intro other hook here
        cases here
  | error errno =>
      simp only [settleCommit, bind_eq, Program.bind_assoc]
      apply modify_same rfl
      · intro now _ _
        unfold StreamingFs.revertInode
        split <;> exact .of_eq rfl rfl rfl rfl rfl rfl rfl
      · exact fun now _ => onward_label _ _ rfl
      intro after relies
      refine settle_safe (setUp.grows relies.grows) (fun _ => rfl)
        (fun _ => rfl) (fun _ => rfl) ?_ ?_ ⟨_, rfl, rfl⟩
        ⟨_, rfl, Or.inr (Or.inl rfl)⟩ ?_
      · rintro other (here | here | here) <;> cases here
      · intro other hook here
        cases here
      · exact fun after later => fulfil after (relies.trans later)

theorem releaseCommit_safe {me : CallId} {rest : CommitResult → Prog α}
    (setUp : view.state.SetUp ino fh)
    (continues : ∀ value (after : View Label StreamingFs),
      Relies strict thread view.state after.state →
        Safe (hookProtocol strict) thread post (rest value) after) :
    Safe (hookProtocol strict) thread post
      ((releaseCommit me ino fh).bind rest) view := by
  have leave : ∀ value (now : View Label StreamingFs),
      Relies strict thread view.state now.state →
      Safe (hookProtocol strict) thread post
        ((unlockStaging (.release fh) ino).bind fun _ => rest value) now := by
    intro value now relies
    apply unlock_safe
    exact fun after later => continues value after (relies.trans later)
  simp only [releaseCommit, bind_eq, Program.bind_assoc]
  apply lock_safe (onward_label _ _ rfl)
  intro locked relies
  have known := setUp.grows relies.grows
  apply read_same rfl
  · intro now grows
    cases settled : (now.channels fh).isTerminal with
    | true => exact onward_of_settled ⟨(known.grows grows).1, settled⟩ _
    | false => exact onward_label _ _ rfl
  intro now _ later after last
  have reached := (relies.trans later).trans last
  cases (now.state.channels fh).isTerminal with
  | true =>
      simp only [if_true, Program.bind_assoc]
      exact leave _ _ reached
  | false =>
      simp only [Bool.false_eq_true, if_false, Program.bind_assoc]
      apply commitWithRetry_safe (setUp.grows reached.grows)
      · rintro (errno | _) <;> exact ⟨_, rfl, rfl⟩
      · exact ⟨_, rfl, Or.inr (Or.inr rfl)⟩
      intro result after later
      have committed := reached.trans later
      apply settleCommit_safe (setUp.grows committed.grows)
      · exact fun now settled => onward_of_settled settled _
      · exact fun after last => leave _ after (committed.trans last)

theorem releaseHandle_safe {result : CommitResult}
    {post : Reply → View Label StreamingFs → Prop}
    (finish : ∀ reply (now : View Label StreamingFs),
      Relies strict thread view.state now.state → post reply now) :
    Safe (hookProtocol strict) thread post (releaseHandle ino fh result)
      view := by
  simp only [releaseHandle, bind_eq]
  apply modify_outside rfl rfl
  · exact fun _ _ _ => .of_eq rfl rfl rfl rfl rfl rfl rfl
  intro after relies
  apply modify_outside rfl rfl
  · intro now _ _
    unfold StreamingFs.reapInode
    split
    · exact .refl _
    · exact .of_eq rfl rfl rfl rfl rfl rfl rfl
  intro after later
  exact Safe.done fun now last _ =>
    finish _ now ((relies.trans later).trans last)

/-- A change of the open handles and of their lock. -/
theorem grows_openFiles (fs : StreamingFs) (openFiles : List FileHandle)
    (lock : Option (CallId × FileHandle)) :
    fs.Grows { fs with openFiles, openFilesLock := lock } :=
  ⟨Nat.le_refl _, fun _ _ => rfl, fun _ _ => id,
    fun _ record found => ⟨record, found, rfl⟩, fun _ _ _ => Or.inr,
    fun _ _ => id⟩

/-- The handle is removed and the lock taken. -/
theorem promises_remove {label : Label} {fs : StreamingFs}
    (free : fs.openFilesLock = none) (fh : FileHandle) :
    Promises strict thread label fs
      { fs with
        openFiles := fs.openFiles.filter (· ≠ fh)
        openFilesLock := some (thread, fh) } := by
  refine ⟨grows_openFiles fs _ _, removesOwn_of_pending rfl, ?_, ?_⟩
  · intro other handle _ held
    rw [free] at held
    cases held
  · rintro _ other _ (isOpen | handed | ⟨call, held⟩)
    · by_cases same : other = fh
      · exact Or.inr (Or.inr ⟨thread, same ▸ rfl⟩)
      · exact Or.inl (List.mem_filter.mpr ⟨isOpen, decide_eq_true same⟩)
    · exact Or.inr (Or.inl handed)
    · rw [free] at held
      cases held

/-- The lock is given back, once the handle is handed over. -/
theorem promises_unlock {label : Label} {fs : StreamingFs}
    (held : fs.openFilesLock = some (thread, fh))
    (handed : strict → fs.Handed fh) :
    Promises strict thread label fs { fs with openFilesLock := none } := by
  refine ⟨grows_openFiles fs _ _, removesOwn_of_pending rfl, ?_, ?_⟩
  · intro other handle different heldOther
    rw [held] at heldOther
    exact absurd (Prod.mk.inj (Option.some.inj heldOther)).1.symm different
  · rintro holds other _ (isOpen | handed' | ⟨call, heldOther⟩)
    · exact Or.inl isOpen
    · exact Or.inr (Or.inl handed')
    · rw [held] at heldOther
      obtain rfl := (Prod.mk.inj (Option.some.inj heldOther)).2
      exact Or.inr (Or.inl (handed holds))

/-- The lock is given back, and the channel is settled. -/
theorem unlockFiles_safe {post : Reply → View Label StreamingFs → Prop}
    (setUp : view.state.SetUp ino fh)
    (held : view.state.openFilesLock = some (thread, fh))
    (handed : strict → view.state.Handed fh)
    (finish : ∀ reply (now : View Label StreamingFs),
      view.state.Grows now.state → post reply now) :
    Safe (hookProtocol strict) thread post
      ((Program.modify ⟨.release fh, .unlockFiles⟩ fun fs =>
          { fs with openFilesLock := none }).bind fun _ =>
        (Program.read ⟨.release fh, .checkState fh⟩ fun fs =>
          (fs.channels fh).isTerminal).bind fun terminal =>
            if terminal then releaseHandle ino fh (.ok ())
            else
              (releaseCommit thread ino fh).bind fun result =>
                releaseHandle ino fh result) view := by
  apply Safe.modify_bind
  intro now relies inOrder point _
  have known := setUp.grows relies.grows
  have promised : Promises strict thread ⟨.release fh, .unlockFiles⟩ now.state
      { now.state with openFilesLock := none } :=
    promises_unlock (relies.lock fh held) fun holds =>
      relies.grows.handed fh setUp.1 (handed holds)
  refine ⟨?_, promised, ?_⟩
  · apply HooksInOrder.reopen inOrder point known.1
    · exact fun _ _ => Iff.rfl
    · exact Or.inr ⟨_, rfl, rfl, rfl⟩
    · exact fun other settles => settles.1.symm
    · exact not_fulfils rfl
    · exact not_removes rfl
  have unlocked := relies.grows.trans promised.grows
  apply read_same rfl
  · intro now grows
    cases settled : (now.channels fh).isTerminal with
    | true =>
        exact onward_of_settled
          ⟨((setUp.grows unlocked).grows grows).1, settled⟩ _
    | false => exact onward_label _ _ rfl
  intro now _ relies after later
  have reached := unlocked.trans (relies.trans later).grows
  cases (now.state.channels fh).isTerminal with
  | true =>
      apply releaseHandle_safe
      exact fun reply now last => finish reply now (reached.trans last.grows)
  | false =>
      apply releaseCommit_safe (setUp.grows reached)
      intro result committed last
      apply releaseHandle_safe
      exact fun reply now closing => finish reply now
        (reached.trans (last.trans closing).grows)

/-- After a release, a handle that was not lost before is handed over. -/
theorem release_safe {post : Reply → View Label StreamingFs → Prop}
    (finish : ∀ reply (now : View Label StreamingFs),
      (strict → fh < view.state.nextFileHandle → view.state.Covered fh →
        now.state.Handed fh) → post reply now) :
    Safe (hookProtocol strict) thread post (release thread fh) view := by
  simp only [release, bind_eq]
  apply Safe.perform_bind
  intro now relies inOrder point _ isReady _
  have free : now.state.openFilesLock = none :=
    Option.isNone_iff_eq_none.mp isReady
  have outside : ∀ other, ¬ Label.Settles ⟨.release fh, .removeHandle fh⟩
      other := by
    rintro other ⟨_, inside⟩
    cases inside
  by_cases isOpen : fh ∈ now.state.openFiles
  case neg =>
    simp only [isOpen, if_false]
    refine ⟨?_, (StreamingFs.SameHooks.refl _).promises strict thread _, ?_⟩
    · apply HooksInOrder.advance_same inOrder point (.refl _) _
        (not_fulfils rfl) (not_removes rfl)
      exact fun other settles => absurd settles (outside other)
    · apply Safe.done
      intro last later _
      apply finish
      intro holds allocated covered
      have known := Nat.lt_of_lt_of_le allocated relies.grows.next
      apply later.grows.handed fh known
      rcases relies.covered holds fh allocated covered with
        member | handed | ⟨call, held⟩
      · exact absurd member isOpen
      · exact handed
      · rw [free] at held
        cases held
  simp only [isOpen, if_true]
  have allocated := inOrder.allocated fh isOpen
  have promised : Promises strict thread ⟨.release fh, .removeHandle fh⟩
      now.state
      { now.state with
        openFiles := now.state.openFiles.filter (· ≠ fh)
        openFilesLock := some (thread, fh) } :=
    promises_remove free fh
  refine ⟨?_, promised, ?_⟩
  · apply HooksInOrder.reopen inOrder point allocated
    · intro other different
      simp [List.mem_filter, different]
    · exact Or.inr ⟨_, rfl, rfl, rfl⟩
    · exact fun other settles => absurd settles (outside other)
    · exact not_fulfils rfl
    · exact not_removes rfl
  -- The lock is held until the channel is handed over.
  have locked : ∀ (held : View Label StreamingFs),
      Relies strict thread
        { now.state with
          openFiles := now.state.openFiles.filter (· ≠ fh)
          openFilesLock := some (thread, fh) } held.state →
      held.state.SetUp (now.state.channels fh).ino fh ∧
        held.state.openFilesLock = some (thread, fh) :=
    fun held relies => ⟨StreamingFs.SetUp.grows ⟨allocated, rfl⟩
      (promised.grows.trans relies.grows), relies.lock fh rfl⟩
  have finished : ∀ (held : View Label StreamingFs),
      held.state.SetUp (now.state.channels fh).ino fh →
      (strict → held.state.Handed fh) →
      ∀ reply (last : View Label StreamingFs),
        held.state.Grows last.state → post reply last :=
    fun held setUp handed reply last grows => finish reply last
      fun holds _ _ => grows.handed fh setUp.1 (handed holds)
  apply read_same rfl
  · intro now _
    cases (now.channels fh).isTerminal <;> exact onward_label _ _ rfl
  intro checked _ relies after later
  obtain ⟨setUp, lock⟩ := locked after (relies.trans later)
  cases settled : (checked.state.channels fh).isTerminal with
  | true =>
      have handed : after.state.Handed fh := by
        apply Or.inl
        exact later.grows.terminal fh (locked checked relies).1.1 settled
      exact unlockFiles_safe setUp lock (fun _ => handed)
        (finished after setUp fun _ => handed)
  | false =>
      simp only [handOver]
      apply install_safe setUp (onward_label _ _ rfl)
      intro installed last handed
      obtain ⟨setUp, lock⟩ := locked installed ((relies.trans later).trans last)
      exact unlockFiles_safe setUp lock (fun holds => handed holds rfl)
        (finished installed setUp fun holds => handed holds rfl)

/-! ## Opening and creating -/

/-- A writer is set up beside the others. -/
theorem grows_allocate (fs : StreamingFs) (channel : StreamingChannel) :
    fs.Grows { fs with
      channels := Function.update fs.channels fs.nextFileHandle channel
      nextFileHandle := fs.nextFileHandle + 1 } := by
  have old : ∀ fh, fh < fs.nextFileHandle →
      Function.update fs.channels fs.nextFileHandle channel fh =
        fs.channels fh :=
    fun fh allocated => Function.update_of_ne (Nat.ne_of_lt allocated) _ _
  constructor
  · exact Nat.le_succ _
  · exact fun fh allocated => congrArg StreamingChannel.ino (old fh allocated)
  · intro fh allocated settled
    exact (congrArg StreamingChannel.isTerminal (old fh allocated)).trans
      settled
  · exact fun _ record found => ⟨record, found, rfl⟩
  · intro fh hook allocated held
    exact Or.inr ((congrArg StreamingChannel.commitHook
      (old fh allocated)).trans held)
  · intro fh allocated handed
    unfold StreamingFs.Handed
    dsimp only
    rw [old fh allocated]
    exact handed

theorem setupWriter_safe {pid : Option Nat}
    {snapshot : Outcome → InodeSnapshot} {generation : Nat}
    {rest : Except Errno FileHandle → Prog α} (idle : caller.IsIdle)
    (later : ∀ fh, ∃ later, (rest (.ok fh)).label? = some later ∧
      later.Settles fh)
    (continues : ∀ value (after : View Label StreamingFs),
      Relies strict thread view.state after.state →
      (∀ fh, value = .ok fh → after.state.SetUp ino fh) →
        Safe (hookProtocol strict) thread post (rest value) after) :
    Safe (hookProtocol strict) thread post
      ((perform ⟨caller, .createWriter ino⟩ (fun _ => true) fun outcome fs =>
        fs.setupWriter ino pid (snapshot outcome) generation outcome).bind
          rest) view := by
  apply Safe.perform_bind
  intro now relies inOrder point _ _ outcome
  unfold StreamingFs.setupWriter
  cases outcome.error with
  | some errno =>
      refine ⟨?_, (StreamingFs.SameHooks.refl _).promises strict thread _, ?_⟩
      · exact HooksInOrder.advance_same inOrder point (.refl _)
          ((idle.onward _ _).goesOn _) (not_fulfils rfl) (not_removes rfl)
      · exact continues _ _ relies (fun _ isError => by cases isError)
  | none =>
      have promised : Promises strict thread ⟨caller, .createWriter ino⟩
          now.state
          { now.state with
            channels := Function.update now.state.channels
              now.state.nextFileHandle
              (.new ino pid (snapshot outcome) generation)
            nextFileHandle := now.state.nextFileHandle + 1 } :=
        StreamingFs.promises_of_grows (grows_allocate _ _)
          (removesOwn_of_pending rfl) rfl rfl
      refine ⟨?_, promised, ?_⟩
      · apply HooksInOrder.allocate inOrder point rfl (later _)
        · exact fun fh settles => idle fh settles.1
        · exact not_fulfils rfl
        · exact not_removes rfl
      · apply continues _ _ (relies.trans (promised.relies fun _ => id))
        intro fh isNew
        obtain rfl := Except.ok.inj isNew
        refine ⟨Nat.lt_succ_self _, ?_⟩
        dsimp only [View.advance]
        rw [Function.update_self]
        rfl

/-- The handle is open from here on. -/
theorem insertHandle_safe {β : Type} {look : StreamingFs → β}
    {rest : β → Prog α} (allocated : fh < view.state.nextFileHandle)
    (own : ∀ other, caller.Settles other → other = fh)
    (continues : ∀ value (after : View Label StreamingFs),
      Relies strict thread view.state after.state →
        Safe (hookProtocol strict) thread post (rest value) after) :
    Safe (hookProtocol strict) thread post
      ((perform ⟨caller, .insertHandle fh⟩ (fun fs => fs.openFilesLock.isNone)
        fun _ fs => (fs.insertHandle fh, look fs)).bind rest) view := by
  apply Safe.perform_bind
  intro now relies inOrder point _ _ _
  have promised : Promises strict thread ⟨caller, .insertHandle fh⟩ now.state
      (now.state.insertHandle fh) := by
    refine ⟨grows_openFiles now.state _ _, removesOwn_of_pending rfl,
      fun _ _ _ => id, ?_⟩
    rintro _ other _ (isOpen | covered)
    · exact Or.inl (List.mem_cons_of_mem _ isOpen)
    · exact Or.inr covered
  refine ⟨?_, promised, continues _ _
    (relies.trans (promised.relies fun _ => id))⟩
  apply HooksInOrder.reopen inOrder point
    (Nat.lt_of_lt_of_le allocated relies.grows.next)
  · intro other different
    simp [different]
  · exact Or.inl List.mem_cons_self
  · exact fun other settles => own other settles.1
  · exact not_fulfils rfl
  · exact not_removes rfl

/-- The active writer is settled before the inode passes on. -/
theorem supersede_safe {active : Option FileHandle} {rest : Unit → Prog α}
    (setUp : ∀ old ∈ active, view.state.SetUp ino old)
    (onward : ∀ fs, Onward fs (.opened ino fh) (rest ()).label?)
    (continues : ∀ after : View Label StreamingFs,
      Relies strict thread view.state after.state →
        Safe (hookProtocol strict) thread post (rest ()) after) :
    Safe (hookProtocol strict) thread post
      ((supersede ino fh active).bind rest) view := by
  cases active with
  | none =>
      exact continues view ((hookProtocol strict).rely_refl thread view)
  | some old =>
      simp only [supersede, bind_eq, Program.bind_assoc]
      have known := setUp old rfl
      refine settle_safe known (fun _ => rfl) (fun _ => rfl) (fun _ => rfl)
        ?_ ?_ ⟨_, rfl, rfl⟩ ⟨_, rfl, Or.inr (Or.inl rfl)⟩ ?_
      · rintro other (here | here | here) <;> cases here
      · intro other hook here
        cases here
      · intro after relies settled
        apply fulfill_safe (known.grows relies.grows) settled (onward _)
        exact fun after later => continues after (relies.trans later)

/-- The history of the other channels is no matter of the hooks. -/
theorem sameHooks_markDirty {now : View Label StreamingFs}
    (inOrder : HooksInOrder now) (allocated : fh < now.state.nextFileHandle)
    (ino : Ino) : now.state.SameHooks (now.state.markDirty ino fh) := by
  have channel : ∀ other, ∃ superseded generation,
      (now.state.markDirty ino fh).channels other =
        { now.state.channels other with
          superseded := superseded
          dirtyGenerationAtOpen := generation } := by
    intro other
    simp only [StreamingFs.markDirty]
    by_cases same : other = fh
    · subst same
      rw [Function.update_self]
      exact ⟨_, _, rfl⟩
    · rw [Function.update_of_ne same]
      simp only [StreamingFs.markSuperseded]
      split <;> exact ⟨_, _, rfl⟩
  constructor
  · intro other bound
    have absent := inOrder.fresh other bound
    have different : other ≠ fh := by
      rintro rfl
      exact absurd allocated (Nat.not_lt.mpr bound)
    simp only [StreamingFs.markDirty]
    rw [Function.update_of_ne different]
    simp [StreamingFs.markSuperseded, absent, StreamingChannel.absent,
      StreamingChannel.isTerminal]
  · intro other
    obtain ⟨_, _, same⟩ := channel other
    rw [same]
  · intro other
    obtain ⟨_, _, same⟩ := channel other
    rw [same]
  · intro other
    obtain ⟨_, _, same⟩ := channel other
    rw [same]
    rfl
  · rfl
  · rfl
  · rfl
  · rfl
  · rfl
  · rfl

theorem installWriter_safe {active : Option FileHandle}
    {post : Reply → View Label StreamingFs → Prop}
    (setUp : view.state.SetUp ino fh)
    (setUpActive : ∀ old ∈ active, view.state.SetUp ino old)
    (finish : ∀ reply now, post reply now) :
    Safe (hookProtocol strict) thread post (installWriter ino fh active)
      view := by
  simp only [installWriter, bind_eq]
  apply supersede_safe setUpActive
  · exact fun fs => onward_label _ _ rfl
  intro after relies
  apply modify_same rfl
  · intro now inOrder grows
    exact sameHooks_markDirty inOrder
      (setUp.grows (relies.grows.trans grows)).1 ino
  · exact fun now _ => onward_label _ _ rfl
  intro after later
  have marked := relies.trans later
  apply modify_same rfl
  · exact fun _ _ _ => .of_eq rfl rfl rfl rfl rfl rfl rfl
  · exact fun now _ => onward_label _ _ rfl
  intro after later
  have bumped := marked.trans later
  apply insertHandle_safe (setUp.grows bumped.grows).1
  · exact fun other same => same.symm
  intro _ after _
  apply unlock_safe
  exact fun after _ => Safe.done fun now _ _ => finish _ now

theorem openTruncate_safe {me : CallId} {pid : Option Nat}
    {post : Reply → View Label StreamingFs → Prop}
    (finish : ∀ reply now, post reply now) :
    Safe (hookProtocol strict) thread post (openTruncate me ino pid) view := by
  have idle : (Caller.openTruncate ino).IsIdle := fun _ settles => settles
  have done : ∀ reply (now : View Label StreamingFs),
      Safe (hookProtocol strict) thread post (.done reply : Prog Reply) now :=
    fun reply _ => Safe.done fun now _ _ => finish reply now
  have leave : ∀ reply (now : View Label StreamingFs),
      Safe (hookProtocol strict) thread post
        ((unlockStaging (.openTruncate ino) ino).bind fun _ => .done reply)
        now :=
    fun reply now => unlock_safe fun after _ => done reply after
  simp only [openTruncate, openStreamingWrite, openLocked, bind_eq]
  apply read_same rfl
  · exact fun now _ => idle.onward _ _
  intro now _ _ after _
  split
  case isFalse => exact done _ _
  apply await_safe idle
  intro waited after _ _
  cases waited with
  | error errno => exact done _ _
  | ok _ =>
      apply lock_safe (idle.onward _ _)
      intro after _
      apply streamingChannelFor_safe idle
      intro active after _ setUpActive
      apply read_same rfl
      · exact fun now _ => idle.onward _ _
      intro now _ relies after later
      have taken := (relies.trans later).grows
      split
      · exact leave _ _
      apply setupWriter_safe idle
      · intro fh
        cases active <;> exact ⟨_, rfl, rfl, rfl⟩
      intro writer after later setUp
      cases writer with
      | error errno => exact leave _ _
      | ok fh =>
          apply installWriter_safe (setUp fh rfl) _ finish
          exact fun old isActive =>
            (setUpActive old isActive).grows (taken.trans later.grows)

theorem create_safe {parent : Ino} {name : Name} {mode uid gid : Nat}
    {pid : Option Nat} {post : Reply → View Label StreamingFs → Prop}
    (finish : ∀ reply now, post reply now) :
    Safe (hookProtocol strict) thread post (create parent name mode uid gid pid)
      view := by
  have idle : Caller.create.IsIdle := fun _ settles => settles
  have done : ∀ reply (now : View Label StreamingFs),
      Safe (hookProtocol strict) thread post (.done reply : Prog Reply) now :=
    fun reply _ => Safe.done fun now _ _ => finish reply now
  simp only [create, bind_eq]
  apply loadChildren_safe idle
  intro loaded after _
  cases loaded with
  | error errno => exact done _ _
  | ok _ =>
      apply perform_same rfl
      · intro now outcome _ _
        unfold StreamingFs.createInode
        split
        · exact .refl _
        split
        · exact .refl _
        split
        · exact .refl _
        · exact .of_eq rfl rfl rfl rfl rfl rfl rfl
      · exact fun now outcome _ => idle.onward _ _
      intro now outcome _ _ _ after _
      split
      · exact done _ _
      rename_i ino generation _
      have creating : (Caller.creating ino).IsIdle := fun _ settles => settles
      apply setupWriter_safe creating
      · exact fun fh => ⟨_, rfl, rfl, rfl⟩
      intro writer after _ setUp
      cases writer with
      | error errno =>
          apply modify_same rfl
          · exact fun _ _ _ => .of_eq rfl rfl rfl rfl rfl rfl rfl
          · exact fun now _ => creating.onward _ _
          · exact fun after _ => done _ _
      | ok fh =>
          simp only [installCreated, bind_eq]
          apply modify_same rfl
          · exact fun _ _ _ => .of_eq rfl rfl rfl rfl rfl rfl rfl
          · exact fun now _ => onward_label _ _ rfl
          intro after later
          apply insertHandle_safe ((setUp fh rfl).grows later.grows).1
          · exact fun other same => same.symm
          · exact fun _ after _ => done _ _

/-! ## Unlink -/

theorem unlink_safe {me : CallId} {parent : Ino} {name : Name}
    {post : Reply → View Label StreamingFs → Prop}
    (finish : ∀ reply now, post reply now) :
    Safe (hookProtocol strict) thread post (unlink me parent name) view := by
  have idle : Caller.unlink.IsIdle := fun _ settles => settles
  have leave : ∀ reply ino (now : View Label StreamingFs),
      Safe (hookProtocol strict) thread post
        ((unlockStaging .unlink ino).bind fun _ => .done reply) now :=
    fun reply ino now => unlock_safe fun after _ =>
      Safe.done fun now _ _ => finish reply now
  simp only [unlink, unlinkTarget, bind_eq]
  apply read_same rfl
  · exact fun now _ => idle.onward _ _
  intro now _ _ after _
  split
  · exact Safe.done fun now _ _ => finish _ now
  apply lock_safe (idle.onward _ _)
  intro after _
  apply read_same rfl
  · exact fun now _ => idle.onward _ _
  intro now _ _ after _
  split
  · exact leave _ _ _
  split
  · exact leave _ _ _
  apply read_same rfl
  · exact fun now _ => idle.onward _ _
  intro now _ _ after _
  split
  · exact leave _ _ _
  apply perform_same rfl
  · exact fun _ _ _ _ => .refl _
  · exact fun now _ _ => idle.onward _ _
  intro now _ _ _ _ after _
  split
  · exact leave _ _ _
  apply perform_same rfl
  · exact fun _ _ _ _ => .of_eq rfl rfl rfl rfl rfl rfl rfl
  · exact fun now _ _ => idle.onward _ _
  · exact fun _ _ _ _ _ after _ => leave _ _ _

/-! ## Shutdown -/

theorem drain_safe {post : Reply → View Label StreamingFs → Prop}
    (finish : ∀ reply (now : View Label StreamingFs),
      (strict → fh < view.state.nextFileHandle → view.state.Covered fh →
        now.state.Handed fh) → post reply now) :
    Safe (hookProtocol strict) thread post (drain thread fh) view := by
  simp only [drain, bind_eq]
  apply flush_safe
  intro _ after relies
  apply release_safe
  intro reply now handed
  apply finish
  intro holds allocated covered
  exact handed holds (Nat.lt_of_lt_of_le allocated relies.grows.next)
    (relies.covered holds fh allocated covered)

theorem awaitCommit_safe {post : Reply → View Label StreamingFs → Prop}
    (finish : ∀ reply (now : View Label StreamingFs),
      (∀ fh, fh < view.state.nextFileHandle →
        (view.state.channels fh).ino = ino → view.state.Handed fh →
          (now.state.channels fh).isTerminal = true) → post reply now) :
    Safe (hookProtocol strict) thread post (awaitCommit ino) view := by
  have idle : Caller.shutdown.IsIdle := fun _ settles => settles
  simp only [awaitCommit, bind_eq]
  apply await_safe idle
  intro waited after relies settled
  apply Safe.done
  intro now later _
  apply finish
  intro fh allocated sameIno handed
  exact later.grows.terminal fh
    (Nat.lt_of_lt_of_le allocated relies.grows.next)
    (settled fh allocated sameIno handed)

/-! ## The system -/

/-- A worker changes nothing of its channel that the hooks depend on. -/
theorem sameHooks_worker {fs : StreamingFs} (allocated : fh < fs.nextFileHandle)
    {found : Option StreamingChannel}
    (kept : ∀ channel ∈ found, channel.ino = (fs.channels fh).ino ∧
      channel.commitHook = (fs.channels fh).commitHook ∧
        channel.state = (fs.channels fh).state)
    {after : StreamingFs}
    (done : (found.map fun channel => fs.updateChannel fh fun _ => channel) =
      some after) : fs.SameHooks after := by
  obtain ⟨channel, isFound, rfl⟩ := Option.map_eq_some_iff.mp done
  obtain ⟨ino, hook, state⟩ := kept channel isFound
  exact StreamingFs.sameHooks_updateChannel allocated ino hook
    (congrArg CommitState.isTerminal state)

theorem sameHooks_work {store : ContentStore} {fs after : StreamingFs}
    {worked : Work} (done : work store fs worked = some after) :
    fs.SameHooks after := by
  cases worked with
  | receive fh =>
      simp only [work] at done
      split at done <;> rename_i allocated
      · apply sameHooks_worker allocated _ done
        intro channel received
        unfold StreamingChannel.receive at received
        split at received
        · obtain rfl := Option.some.inj received
          exact ⟨rfl, rfl, rfl⟩
        · cases received
      · cases done
  | process fh error =>
      simp only [work] at done
      split at done <;> rename_i allocated
      · apply sameHooks_worker allocated _ done
        intro channel processed
        simp only [StreamingChannel.process] at processed
        split at processed
        · cases processed
        · split at processed
          · obtain rfl := Option.some.inj processed
            exact ⟨rfl, rfl, rfl⟩
          · split at processed
            all_goals
              obtain rfl := Option.some.inj processed
              exact ⟨rfl, rfl, rfl⟩
        · obtain rfl := Option.some.inj processed
          exact ⟨rfl, rfl, rfl⟩
      · cases done

theorem program_safe (call : Call) :
    Safe (hookProtocol strict) thread (fun _ _ => True) (program thread call)
      view := by
  have finish : ∀ (_ : Reply) (_ : View Label StreamingFs), True :=
    fun _ _ => trivial
  cases call with
  | write fh offset data => exact write_safe finish
  | flush fh pid =>
      rw [program, ← Program.bind_done (flush thread fh pid)]
      apply flush_safe
      exact fun _ _ _ => Safe.done fun _ _ _ => trivial
  | link ino => exact link_safe finish
  | release fh => exact release_safe fun _ _ _ => trivial
  | openTruncate ino pid => exact openTruncate_safe finish
  | create parent name mode uid gid pid => exact create_safe finish
  | unlink parent name => exact unlink_safe finish
  | drain fh => exact drain_safe fun _ _ _ => trivial
  | awaitCommit ino => exact awaitCommit_safe fun _ _ _ => trivial

end Parts

/-- Every call and every worker keeps the hooks in order. -/
theorem certified_hooks (strict : Prop) (store : ContentStore) :
    Certified (system store) (hookProtocol strict) fun _ _ _ _ => True := by
  constructor
  · intro view thread call inOrder idle
    refine ⟨HooksInOrder.start inOrder idle, ?_, program_safe call⟩
    exact fun other _ => (hookProtocol strict).rely_refl other view
  · intro view worked state inOrder done
    have same := sameHooks_work done
    exact ⟨HooksInOrder.same inOrder same,
      fun thread => same.relies strict thread⟩

theorem hooksInOrder_empty :
    HooksInOrder { state := .empty, point := fun _ => none } := by
  constructor
  · exact fun _ _ => rfl
  · exact fun _ _ => rfl
  · exact fun fh member => by cases member
  · exact fun _ _ found => by cases found
  · exact fun _ _ held => by cases held
  · exact fun _ _ found => by cases found
  · exact fun _ _ held => absurd rfl held
  · exact fun fh allocated => absurd allocated (Nat.not_lt_zero fh)

end HfMount.Streaming
