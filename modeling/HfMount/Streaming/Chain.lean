import HfMount.Lib.Sequential
import HfMount.Streaming.FileStates

/-!
# Calls that run one after the other

What the streaming calls do to the inodes, the handles and the writers when no
other call runs beside them.  The hooks, the locks and the queues do not show.
-/

namespace HfMount.Streaming

open SlashPath Inode Vfs Interleaving Program

theorem CommitState.isTerminal_of_isOpen {state : CommitState}
    (isOpen : state.isOpen = true) : state.isTerminal = false := by
  cases state with
  | writing | deferred | committing => rfl
  | committed => cases isOpen
  | failed message => cases isOpen

/-- The part of a channel that decides what happens to its inode. -/
structure Writer where
  ino : Ino
  state : CommitState
  snapshot : InodeSnapshot
  dirtyGenerationAtOpen : Nat

def StreamingChannel.writer (channel : StreamingChannel) : Writer :=
  { ino := channel.ino
    state := channel.state
    snapshot := channel.snapshot
    dirtyGenerationAtOpen := channel.dirtyGenerationAtOpen }

/-- The part of the state that a call leaves for the next one to see. -/
structure Writers where
  inodes : InodeTable
  openFiles : List FileHandle
  writer : FileHandle → Writer
  nextFileHandle : FileHandle
  hub : List (FileHandle × List BatchOp)

def StreamingFs.writers (fs : StreamingFs) : Writers :=
  { inodes := fs.inodes
    openFiles := fs.openFiles
    writer := fun fh => (fs.channels fh).writer
    nextFileHandle := fs.nextFileHandle
    hub := fs.hub }

namespace Writer

/-- The bytes of the writer are still to be committed. -/
def IsActive (writer : Writer) : Prop := writer.state.isTerminal = false

end Writer

namespace Writers

def setWriter (seen : Writers) (fh : FileHandle) (writer : Writer) : Writers :=
  { seen with writer := Function.update seen.writer fh writer }

def setState (seen : Writers) (fh : FileHandle) (state : CommitState) :
    Writers :=
  seen.setWriter fh { seen.writer fh with state }

/-- The Hub has applied the batch. -/
def send (seen : Writers) (fh : FileHandle) (ops : List BatchOp) : Writers :=
  { seen with hub := seen.hub ++ [(fh, ops)] }

def applyCommit (seen : Writers) (ino : Ino) (fh : FileHandle)
    (info : XetFileInfo) (now : Time) : Writers :=
  { seen with
    inodes := seen.inodes.modify ino fun entry =>
      entry.applyCommit info.hash info.fileSize
        (seen.writer fh).dirtyGenerationAtOpen now }

/-- What a commit leaves. -/
def commit (seen : Writers) (ino : Ino) (fh : FileHandle) (ops : List BatchOp)
    (info : XetFileInfo) (now : Time) : Writers :=
  ((seen.send fh ops).applyCommit ino fh info now).setState fh .committed

def revertInode (seen : Writers) (ino : Ino) (snapshot : InodeSnapshot) :
    Writers :=
  { seen with
    inodes :=
      if snapshot.existedBefore then
        seen.inodes.modify ino (·.revert snapshot)
      else seen.inodes.remove ino }

/-- What a failed commit leaves. -/
def revert (seen : Writers) (ino : Ino) (fh : FileHandle) : Writers :=
  (seen.revertInode ino (seen.writer fh).snapshot).setState fh
    (.failed "commit failed")

end Writers

namespace StreamingFs

theorem writers_updateChannel (fs : StreamingFs) (fh : FileHandle)
    (change : StreamingChannel → StreamingChannel) :
    (fs.updateChannel fh change).writers =
      fs.writers.setWriter fh (change (fs.channels fh)).writer := by
  simp only [writers, updateChannel, Writers.setWriter]
  congr 1
  funext other
  by_cases here : other = fh
  · subst here
    simp
  · simp [here]

theorem setWriter_self (fs : StreamingFs) (fh : FileHandle) :
    fs.writers.setWriter fh (fs.channels fh).writer = fs.writers := by
  simp only [writers, Writers.setWriter]
  congr 1
  exact Function.update_eq_self _ _

/-- A change that does not touch the writer. -/
theorem writers_updateChannel_same (fs : StreamingFs) (fh : FileHandle)
    {change : StreamingChannel → StreamingChannel}
    (same : (change (fs.channels fh)).writer = (fs.channels fh).writer) :
    (fs.updateChannel fh change).writers = fs.writers := by
  rw [writers_updateChannel, same, setWriter_self]

/-- A change of the state of the channel. -/
theorem writers_changeState (fs : StreamingFs) (fh : FileHandle)
    (change : CommitState → CommitState) :
    (fs.updateChannel fh fun channel =>
        { channel with state := change channel.state }).writers =
      fs.writers.setState fh (change (fs.writers.writer fh).state) :=
  fs.writers_updateChannel fh _

@[simp] theorem writers_setState (fs : StreamingFs) (fh : FileHandle)
    (state : CommitState) :
    (fs.setState fh state).writers = fs.writers.setState fh state :=
  fs.writers_updateChannel fh _

@[simp] theorem writers_failSuperseded (fs : StreamingFs) (old : FileHandle) :
    (fs.failSuperseded old).writers =
      fs.writers.setState old (.failed "superseded by O_TRUNC reopen") :=
  fs.writers_updateChannel old _

@[simp] theorem writers_putHook (fs : StreamingFs) (ino : Ino)
    (fh : FileHandle) : (fs.putHook ino fh).writers = fs.writers := by
  unfold putHook
  split
  · rfl
  · change (fs.updateChannel fh fun channel =>
      { channel with commitHook := some fs.nextHook }).writers = _
    exact fs.writers_updateChannel_same fh rfl

@[simp] theorem writers_takeHook (fs : StreamingFs) (fh : FileHandle)
    (result : CommitResult) : (fs.takeHook fh result).1.writers = fs.writers := by
  unfold takeHook
  split
  · rfl
  · change (fs.updateChannel fh fun channel =>
      { channel with commitHook := none, hookLocked := true }).writers = _
    exact fs.writers_updateChannel_same fh rfl

@[simp] theorem writers_removePending (fs : StreamingFs) (ino : Ino)
    (fh : FileHandle) (hook : HookId) :
    (fs.removePending ino fh hook).writers = fs.writers := by
  change (fs.updateChannel fh fun channel =>
    { channel with hookLocked := false }).writers = _
  exact fs.writers_updateChannel_same fh rfl

@[simp] theorem writers_applyCommit (fs : StreamingFs) (ino : Ino)
    (fh : FileHandle) (info : XetFileInfo) (now : Time) :
    (fs.applyCommit ino fh info now).writers =
      fs.writers.applyCommit ino fh info now := rfl

@[simp] theorem writers_revertInode (fs : StreamingFs) (ino : Ino)
    (snapshot : InodeSnapshot) :
    (fs.revertInode ino snapshot).writers =
      fs.writers.revertInode ino snapshot := by
  unfold revertInode Writers.revertInode
  split <;> rfl

theorem writers_work {store : ContentStore} {fs next : StreamingFs}
    {worked : Work} (stepped : work store fs worked = some next) :
    next.writers = fs.writers := by
  cases worked with
  | receive fh =>
      simp only [work] at stepped
      split at stepped
      · obtain ⟨channel, received, rfl⟩ := Option.map_eq_some_iff.mp stepped
        apply writers_updateChannel_same
        unfold StreamingChannel.receive at received
        split at received
        · obtain rfl := Option.some.inj received
          rfl
        · cases received
      · cases stepped
  | process fh error =>
      simp only [work] at stepped
      split at stepped
      · obtain ⟨channel, processed, rfl⟩ := Option.map_eq_some_iff.mp stepped
        apply writers_updateChannel_same
        unfold StreamingChannel.process at processed
        split at processed
        · cases processed
        · dsimp only at processed
          split at processed
          · obtain rfl := Option.some.inj processed
            rfl
          · split at processed
            all_goals
              obtain rfl := Option.some.inj processed
              rfl
        · obtain rfl := Option.some.inj processed
          rfl
      · cases stepped

end StreamingFs

/-- Whatever the program does from here when it runs alone. -/
abbrev Ends (program : Prog α) : Writers → (α → Writers → Prop) → Prop :=
  program.Ensures StreamingFs.writers

section

variable {caller : Caller} {ino : Ino} {fh : FileHandle} {seen : Writers}

/-! ## Steps that do not show -/

theorem fulfillCommitHook_ends {result : CommitResult}
    {post : Unit → Writers → Prop} (after : post () seen) :
    Ends (fulfillCommitHook caller ino fh result) seen post := by
  unfold fulfillCommitHook
  apply ensures_bind.mpr
  apply ensures_hidden
  · intro choice fs
    simp
  · intro taken
    cases taken with
    | none => exact after
    | some hook =>
        apply ensures_modify
        intro fs isSeen
        simpa [isSeen] using after

theorem installCommitHook_ends {post : Unit → Writers → Prop}
    (after : post () seen) :
    Ends (installCommitHook caller ino fh) seen post := by
  unfold installCommitHook
  apply ensures_bind.mpr
  apply ensures_hidden
  · intro choice fs
    simp
  · intro _
    apply ensures_bind.mpr
    apply ensures_read
    intro fs _
    split
    · exact fulfillCommitHook_ends after
    · exact after

theorem awaitPendingCommit_ends {post : Except Errno Unit → Writers → Prop}
    (after : ∀ waited, post waited seen) :
    Ends (awaitPendingCommit caller ino) seen post := by
  unfold awaitPendingCommit
  apply ensures_bind.mpr
  apply ensures_read
  intro fs _
  split
  · exact after _
  · apply ensures_hidden
    · intro choice fs
      rfl
    · exact after

theorem lockStaging_ends {me : CallId} {post : Unit → Writers → Prop}
    (after : post () seen) : Ends (lockStaging me caller ino) seen post := by
  apply ensures_hidden
  · intro choice fs
    rfl
  · exact fun _ => after

theorem unlockStaging_ends {post : Unit → Writers → Prop}
    (after : post () seen) : Ends (unlockStaging caller ino) seen post := by
  apply ensures_modify
  rintro fs rfl
  exact after

/-! ## Commits -/

/-- What `streamingCommit` ends with. -/
inductive Commits (seen : Writers) (ino : Ino) (fh : FileHandle) :
    CommitResult → Writers → Prop
  | failed (errno : Errno) (state : CommitState) :
      state.isTerminal = false →
      Commits seen ino fh (.error errno) (seen.setState fh state)
  | done (ops : List BatchOp) (info : XetFileInfo) (now : Time) :
      Commits seen ino fh (.ok ()) (seen.commit ino fh ops info now)

@[simp] theorem setState_setState (seen : Writers) (fh : FileHandle)
    (first second : CommitState) :
    (seen.setState fh first).setState fh second = seen.setState fh second := by
  simp [Writers.setState, Writers.setWriter]

theorem commit_setState (seen : Writers) (ino : Ino) (fh : FileHandle)
    (state : CommitState) (ops : List BatchOp) (info : XetFileInfo)
    (now : Time) :
    (seen.setState fh state).commit ino fh ops info now =
      seen.commit ino fh ops info now := by
  simp [Writers.commit, Writers.setState, Writers.setWriter, Writers.send,
    Writers.applyCommit]

/-- A commit may start again after a failed one. -/
theorem Commits.of_setState {state : CommitState} {result : CommitResult}
    {after : Writers} (commits : Commits (seen.setState fh state) ino fh result
      after) : Commits seen ino fh result after := by
  cases commits with
  | failed errno later isOpen =>
      rw [setState_setState]
      exact .failed errno later isOpen
  | done ops info now =>
      rw [commit_setState]
      exact .done ops info now

theorem commitToHub_ends {info : XetFileInfo} :
    Ends (commitToHub caller ino fh info) seen fun result after =>
      (∃ errno, result = .error errno ∧ after = seen) ∨
        ∃ ops now, result = .ok () ∧
          after = seen.commit ino fh ops info now := by
  unfold commitToHub
  apply ensures_bind.mpr
  apply ensures_read
  intro fs _
  split
  · exact Or.inl ⟨_, rfl, rfl⟩
  · rename_i fullPath pendingDeletes _
    apply ensures_bind.mpr
    apply ensures_perform
    intro outcome before isSeen _
    cases failing : outcome.error with
    | some errno =>
        simp only [StreamingFs.batchOperations, failing]
        apply ensures_bind.mpr
        apply ensures_modify
        intro parked isParked
        left
        refine ⟨errno, rfl, ?_⟩
        rw [StreamingFs.writers_updateChannel_same _ _ rfl, isParked, isSeen]
    | none =>
        simp only [StreamingFs.batchOperations, failing]
        apply ensures_bind.mpr
        apply ensures_perform
        intro choice applied isApplied _
        apply ensures_bind.mpr
        apply ensures_modify
        intro marked isMarked
        right
        refine ⟨.addFile fullPath info.hash :: pendingDeletes.map .deleteFile,
          choice.now, rfl, ?_⟩
        rw [StreamingFs.writers_setState, isMarked,
          StreamingFs.writers_applyCommit, isApplied, ← isSeen]
        rfl

/-- The inode is a file that the writer owns. -/
def Writers.Owns (seen : Writers) (fh : FileHandle) : Prop :=
  ∃ snapshot, seen.inodes.fileState (seen.writer fh).ino =
    some ((seen.writer fh).dirtyGenerationAtOpen, snapshot)

theorem not_skipCommit {fs : StreamingFs} (linked : fs.inodes.AllLinked)
    (owns : fs.writers.Owns fh) :
    fs.skipCommit (fs.channels fh).ino fh = false := by
  obtain ⟨snapshot, isState⟩ := owns
  obtain ⟨entry, found, file, same⟩ :=
    InodeTable.fileState_eq_some.mp isState
  have found : fs.inodes.get (fs.channels fh).ino = some entry := found
  have generation : entry.dirtyGeneration =
      (fs.channels fh).dirtyGenerationAtOpen := congrArg Prod.fst same
  have positive := linked.linked found
  simp [StreamingFs.skipCommit, found, StreamingChannel.ownsGeneration,
    generation, Nat.ne_of_gt positive]

theorem streamingCommit_ends {me : CallId} (linked : seen.inodes.AllLinked)
    (isIno : (seen.writer fh).ino = ino) (owns : seen.Owns fh)
    (active : (seen.writer fh).IsActive) :
    Ends (streamingCommit me caller ino fh) seen (Commits seen ino fh) := by
  have flipped : (seen.writer fh).state.flip.isTerminal = false := by
    rw [CommitState.isTerminal_flip]
    exact active
  have afterFlip : ∀ {info : XetFileInfo},
      Ends (commitToHub caller ino fh info)
        (seen.setState fh (seen.writer fh).state.flip)
        (Commits seen ino fh) := by
    intro info
    apply commitToHub_ends.mono
    rintro result after (⟨errno, rfl, rfl⟩ | ⟨ops, now, rfl, rfl⟩)
    · exact .failed errno _ flipped
    · rw [commit_setState]
      exact .done ops info now
  unfold streamingCommit
  apply ensures_bind.mpr
  apply ensures_read
  rintro fs rfl
  have owned : fs.skipCommit ino fh = false := by
    rw [← isIno]
    exact not_skipCommit linked owns
  rw [owned, if_neg Bool.false_ne_true]
  apply ensures_bind.mpr
  apply ensures_modify
  intro middle isSeen
  rw [middle.writers_changeState, isSeen]
  apply ensures_bind.mpr
  apply ensures_hidden
  · intro choice state
    exact state.writers_updateChannel_same fh rfl
  intro pending
  cases pending with
  | some info => exact afterFlip
  | none =>
      apply ensures_bind.mpr
      apply ensures_hidden
      · intro choice state
        unfold StreamingFs.sendFinish
        split
        · rfl
        · exact state.writers_updateChannel_same fh rfl
      intro sent
      cases sent with
      | true =>
          apply ensures_bind.mpr
          apply ensures_hidden
          · intro choice state
            rfl
          intro reply
          cases reply with
          | ok info => exact afterFlip
          | error errno => exact .failed errno _ flipped
      | false =>
          apply ensures_bind.mpr
          apply ensures_read
          intro state isState
          -- the state was flipped, so nothing is committed yet
          have flippedState : (state.channels fh).state =
              (fs.writers.writer fh).state.flip := by
            have here := congrFun (congrArg Writers.writer isState) fh
            simp only [Writers.setState, Writers.setWriter,
              Function.update_self] at here
            exact congrArg Writer.state here
          have uncommitted : (state.channels fh).state ≠ .committed := by
            intro committed
            rw [← flippedState, committed] at flipped
            cases flipped
          rw [decide_eq_false uncommitted]
          exact .failed .eio _ flipped

/-! ## Flush -/

/-- What a call does to a writer without settling it, or the commit of it. -/
inductive Flushes (seen : Writers) (fh : FileHandle) : Writers → Prop
  | same : Flushes seen fh seen
  | changed (state : CommitState) : (seen.writer fh).IsActive →
      state.isTerminal = false → Flushes seen fh (seen.setState fh state)
  | done (ops : List BatchOp) (info : XetFileInfo) (now : Time) :
      (seen.writer fh).IsActive →
      Flushes seen fh (seen.commit (seen.writer fh).ino fh ops info now)

theorem commitStreamingNow_ends {me : CallId}
    (linked : seen.inodes.AllLinked) (isIno : (seen.writer fh).ino = ino)
    (owns : (seen.writer fh).IsActive → seen.Owns fh) :
    Ends (commitStreamingNow me caller ino fh) seen fun _ after =>
      Flushes seen fh after := by
  unfold commitStreamingNow
  apply ensures_bind.mpr
  apply lockStaging_ends
  apply ensures_bind.mpr
  apply ensures_read
  intro first _
  split
  · apply ensures_bind.mpr
    apply unlockStaging_ends
    exact .same
  apply ensures_bind.mpr
  apply ensures_read
  rintro second rfl
  split <;> rename_i reached
  · apply ensures_bind.mpr
    apply unlockStaging_ends
    exact .same
  have active : (second.writers.writer fh).IsActive := by
    unfold Writer.IsActive CommitState.isTerminal
    exact congrArg Option.isSome reached
  apply ensures_bind.mpr
  apply installCommitHook_ends
  apply ensures_bind.mpr
  apply (streamingCommit_ends linked isIno (owns active) active).mono
  intro result after commits
  cases commits with
  | failed errno state isOpen =>
      apply ensures_bind.mpr
      apply unlockStaging_ends
      exact .changed state active isOpen
  | done ops info now =>
      apply ensures_bind.mpr
      apply ensures_modify
      intro committed isCommitted
      have again : (second.writers.commit ino fh ops info now).setState fh
          .committed = second.writers.commit ino fh ops info now := by
        simp [Writers.commit, Writers.setState, Writers.setWriter]
      rw [StreamingFs.writers_setState, isCommitted, again]
      apply ensures_bind.mpr
      apply fulfillCommitHook_ends
      apply ensures_bind.mpr
      apply unlockStaging_ends
      rw [← isIno]
      exact .done ops info now active

theorem deferCommit_ends {post : Unit → Writers → Prop}
    (after : post () (seen.setState fh (seen.writer fh).state.demote)) :
    Ends (deferCommit caller ino fh) seen post := by
  unfold deferCommit
  apply ensures_bind.mpr
  apply installCommitHook_ends
  apply ensures_modify
  intro fs isSeen
  rw [fs.writers_changeState, isSeen]
  exact after

theorem flush_ends {me : CallId} {pid : Option Nat}
    (linked : seen.inodes.AllLinked)
    (owns : (seen.writer fh).IsActive → seen.Owns fh) :
    Ends (flush me fh pid) seen fun _ after => Flushes seen fh after := by
  unfold flush
  apply ensures_bind.mpr
  apply ensures_perform
  intro choice found isFound _
  rw [isFound]
  split
  · exact .same
  rename_i streamed isIno
  have sameIno : (seen.writer fh).ino = streamed := by
    dsimp only at isIno
    split at isIno
    · rw [← isFound]
      exact Option.some.inj isIno
    · cases isIno
  apply ensures_bind.mpr
  apply ensures_read
  intro first _
  split
  · exact .same
  apply ensures_bind.mpr
  apply ensures_read
  intro second isSecond
  split <;> rename_i reached
  · exact .same
  have active : (seen.writer fh).IsActive := by
    rw [← isSecond]
    exact congrArg Option.isSome reached
  have deferred : Flushes seen fh
      (seen.setState fh (seen.writer fh).state.demote) := by
    apply Flushes.changed _ active
    rw [CommitState.isTerminal_demote]
    exact active
  apply ensures_bind.mpr
  apply ensures_hidden
  · intro choice state
    rfl
  intro foreign
  split
  · apply ensures_bind.mpr
    exact deferCommit_ends deferred
  apply ensures_bind.mpr
  apply ensures_read
  intro third _
  split
  · apply ensures_bind.mpr
    exact deferCommit_ends deferred
  · apply ensures_bind.mpr
    apply (commitStreamingNow_ends linked sameIno owns).mono
    intro result after flushes
    exact flushes

/-! ## Writes -/

/-- A write that is accepted sets the size of the file. -/
def Writers.resize (seen : Writers) (ino : Ino) (size : Nat) : Writers :=
  { seen with
    inodes := seen.inodes.modify ino fun entry => { entry with size } }

theorem write_ends {offset : Nat} {data : Bytes} :
    Ends (write fh offset data) seen fun _ after =>
      after = seen ∨ (seen.writer fh).IsActive ∧
        ∃ size, after = seen.resize (seen.writer fh).ino size := by
  unfold write
  apply ensures_bind.mpr
  apply ensures_hidden
  · intro choice state
    rfl
  intro found
  split
  · exact Or.inl rfl
  apply ensures_bind.mpr
  apply ensures_read
  intro first _
  split
  · exact Or.inl rfl
  apply ensures_bind.mpr
  apply ensures_read
  intro second _
  split
  · exact Or.inl rfl
  apply ensures_bind.mpr
  apply ensures_hidden
  · intro choice state
    unfold StreamingFs.reserveSlot
    split
    · rfl
    · exact state.writers_updateChannel_same fh rfl
  intro reserved
  split
  · exact Or.inl rfl
  apply ensures_bind.mpr
  apply ensures_perform
  intro choice before isSeen _
  have unseen : (before.enqueue fh offset data).1.writers = seen := by
    rw [← isSeen]
    unfold StreamingFs.enqueue
    split
    · exact before.writers_updateChannel_same fh rfl
    · exact before.writers_updateChannel_same fh rfl
  rw [unseen]
  split <;> rename_i accepted
  · exact Or.inl rfl
  have active : (seen.writer fh).IsActive := by
    rw [← isSeen]
    simp only [StreamingFs.enqueue] at accepted
    split at accepted <;> rename_i isOpen
    · exact CommitState.isTerminal_of_isOpen isOpen
    · simp at accepted
  apply ensures_bind.mpr
  apply ensures_modify
  intro advanced isAdvanced
  rw [advanced.writers_updateChannel_same fh rfl, isAdvanced]
  apply ensures_bind.mpr
  apply ensures_modify
  rintro resized rfl
  exact Or.inr ⟨active, offset + data.length, rfl⟩

/-! ## Release -/

/-- What the commit section of a release leaves. -/
inductive Settles (seen : Writers) (fh : FileHandle) : Writers → Prop
  | settled : ¬ (seen.writer fh).IsActive → Settles seen fh seen
  | done (ops : List BatchOp) (info : XetFileInfo) (now : Time) :
      (seen.writer fh).IsActive →
      Settles seen fh (seen.commit (seen.writer fh).ino fh ops info now)
  | reverted : (seen.writer fh).IsActive →
      Settles seen fh (seen.revert (seen.writer fh).ino fh)

/-- The handle is not open any more. -/
def Writers.closeHandle (seen : Writers) (fh : FileHandle) : Writers :=
  { seen with openFiles := seen.openFiles.filter (· ≠ fh) }

/-- The end of a release. -/
def Writers.dropHandle (seen : Writers) (ino : Ino) : Writers :=
  { seen with
    inodes :=
      let dropped := seen.inodes.dropOpenHandles ino
      if dropped.hasOpenHandles ino then dropped
      else dropped.removeOrphan ino }

theorem owns_setState {state : CommitState} :
    (seen.setState fh state).Owns fh ↔ seen.Owns fh := by
  simp [Writers.Owns, Writers.setState, Writers.setWriter]

theorem commitWithRetry_ends {me : CallId} (linked : seen.inodes.AllLinked)
    (isIno : (seen.writer fh).ino = ino) (owns : seen.Owns fh)
    (active : (seen.writer fh).IsActive) :
    Ends (commitWithRetry me caller ino fh) seen (Commits seen ino fh) := by
  unfold commitWithRetry
  apply ensures_bind.mpr
  apply (streamingCommit_ends linked isIno owns active).mono
  intro result after commits
  cases commits with
  | done ops info now => exact .done ops info now
  | failed errno state isOpen =>
      apply ensures_bind.mpr
      apply ensures_read
      intro fs _
      split
      · have again := @streamingCommit_ends caller ino fh
          (seen.setState fh state) me linked
          (by simp [Writers.setState, Writers.setWriter, isIno])
          (owns_setState.mpr owns)
          (by simpa [Writer.IsActive, Writers.setState, Writers.setWriter]
            using isOpen)
        exact again.mono fun result after commits => commits.of_setState
      · exact .failed errno state isOpen

theorem revert_of_setState (seen : Writers) (ino : Ino) (fh : FileHandle)
    (state : CommitState) :
    ((seen.setState fh state).revertInode ino
        (seen.writer fh).snapshot).setState fh (.failed "commit failed") =
      seen.revert ino fh := by
  simp [Writers.revert, Writers.revertInode, Writers.setState,
    Writers.setWriter]

theorem releaseCommit_ends {me : CallId} (linked : seen.inodes.AllLinked)
    (isIno : (seen.writer fh).ino = ino)
    (owns : (seen.writer fh).IsActive → seen.Owns fh) :
    Ends (releaseCommit me ino fh) seen fun _ after =>
      Settles seen fh after := by
  unfold releaseCommit
  apply ensures_bind.mpr
  apply lockStaging_ends
  apply ensures_bind.mpr
  apply ensures_read
  rintro fs rfl
  split <;> rename_i reached
  · apply ensures_bind.mpr
    apply unlockStaging_ends
    apply Settles.settled
    intro active
    exact absurd (reached.symm.trans active) (by simp)
  have active : (fs.writers.writer fh).IsActive :=
    Bool.eq_false_iff.mpr reached
  apply ensures_bind.mpr
  apply (commitWithRetry_ends linked isIno (owns active) active).mono
  intro result after commits
  apply ensures_bind.mpr
  subst isIno
  cases commits with
  | done ops info now =>
      unfold settleCommit
      apply ensures_modify
      intro settled isSettled
      have again : (fs.writers.commit (fs.writers.writer fh).ino fh ops info
          now).setState fh .committed =
            fs.writers.commit (fs.writers.writer fh).ino fh ops info now := by
        simp [Writers.commit]
      rw [StreamingFs.writers_setState, isSettled, again]
      apply ensures_bind.mpr
      apply fulfillCommitHook_ends
      apply ensures_bind.mpr
      apply unlockStaging_ends
      exact .done ops info now active
  | failed errno state isOpen =>
      unfold settleCommit
      apply ensures_bind.mpr
      apply ensures_modify
      intro reverted isReverted
      apply ensures_modify
      intro failed isFailed
      have snapshot : (reverted.channels fh).snapshot =
          (fs.writers.writer fh).snapshot := by
        have here := congrFun (congrArg Writers.writer isReverted) fh
        simp only [Writers.setState, Writers.setWriter,
          Function.update_self] at here
        exact congrArg Writer.snapshot here
      rw [StreamingFs.writers_setState, isFailed,
        StreamingFs.writers_revertInode, isReverted, snapshot,
        revert_of_setState]
      apply ensures_bind.mpr
      apply fulfillCommitHook_ends
      apply ensures_bind.mpr
      apply unlockStaging_ends
      exact .reverted active

theorem releaseHandle_ends {result : CommitResult}
    {post : Reply → Writers → Prop}
    (after : post result.reply (seen.dropHandle ino)) :
    Ends (releaseHandle ino fh result) seen post := by
  unfold releaseHandle
  apply ensures_bind.mpr
  apply ensures_modify
  intro dropped isDropped
  apply ensures_bind.mpr
  apply ensures_modify
  intro reaped isReaped
  have same : (reaped.reapInode ino).writers = seen.dropHandle ino := by
    have inodes : reaped.inodes = seen.inodes.dropOpenHandles ino := by
      rw [← isDropped]
      exact congrArg Writers.inodes isReaped
    have rest : reaped.writers =
        { seen with inodes := seen.inodes.dropOpenHandles ino } := by
      rw [isReaped, ← isDropped]
      rfl
    unfold StreamingFs.reapInode Writers.dropHandle
    dsimp only
    rw [inodes]
    split
    · exact rest
    · have removed : StreamingFs.writers { reaped with inodes := (seen.inodes.dropOpenHandles ino).removeOrphan ino } =
        { reaped.writers with inodes := (seen.inodes.dropOpenHandles ino).removeOrphan ino } := rfl
      rw [removed, rest]
  rw [same]
  exact after

theorem handOver_ends {terminal : Bool} {post : Unit → Writers → Prop}
    (after : post () seen) : Ends (handOver ino fh terminal) seen post := by
  cases terminal with
  | true => exact after
  | false => exact installCommitHook_ends after

/-- What a release leaves, if its handle was open. -/
def Releases (seen : Writers) (fh : FileHandle) (after : Writers) : Prop :=
  after = seen ∨ ∃ settled, Settles (seen.closeHandle fh) fh settled ∧
    after = settled.dropHandle (seen.writer fh).ino

theorem release_ends {me : CallId} (linked : seen.inodes.AllLinked)
    (owns : (seen.writer fh).IsActive → seen.Owns fh) :
    Ends (release me fh) seen fun _ after => Releases seen fh after := by
  unfold release
  apply ensures_bind.mpr
  apply ensures_perform
  rintro choice fs rfl _
  by_cases isOpen : fh ∈ fs.openFiles
  · simp only [if_pos isOpen]
    apply ensures_bind.mpr
    apply ensures_read
    intro first isFirst
    apply ensures_bind.mpr
    apply handOver_ends
    apply ensures_bind.mpr
    apply ensures_modify
    rintro second isSecond
    apply ensures_bind.mpr
    apply ensures_read
    intro third isThird
    have closed : third.writers = fs.writers.closeHandle fh :=
      isThird.trans isSecond
    have sameWriter : (third.channels fh).writer = fs.writers.writer fh :=
      congrFun (congrArg Writers.writer closed) fh
    rw [← isThird, closed]
    split <;> rename_i reached
    · apply releaseHandle_ends
      refine Or.inr ⟨_, .settled ?_, rfl⟩
      intro active
      change (fs.writers.writer fh).state.isTerminal = false at active
      rw [← sameWriter] at active
      exact absurd (reached.symm.trans active) (by simp)
    · have settling : Ends (releaseCommit me (fs.channels fh).ino fh)
          (fs.writers.closeHandle fh) fun _ after =>
            Settles (fs.writers.closeHandle fh) fh after :=
        releaseCommit_ends linked rfl owns
      apply ensures_bind.mpr
      apply settling.mono
      intro result after settles
      apply releaseHandle_ends
      exact Or.inr ⟨after, settles, rfl⟩
  · simp only [if_neg isOpen]
    exact Or.inl rfl

/-! ## Opening and creating -/

/-- The writer of a new channel. -/
def Writers.addWriter (seen : Writers) (ino : Ino) (snapshot : InodeSnapshot)
    (generation : Nat) : Writers :=
  { seen.setWriter seen.nextFileHandle
      { ino
        state := .writing
        snapshot
        dirtyGenerationAtOpen := generation } with
    nextFileHandle := seen.nextFileHandle + 1 }

theorem setupWriter_cases {fs : StreamingFs} {pid : Option Nat}
    {snapshot : InodeSnapshot} {generation : Nat} {outcome : Outcome} :
    (∃ errno, fs.setupWriter ino pid snapshot generation outcome =
        (fs, .error errno)) ∨
      ∃ next, fs.setupWriter ino pid snapshot generation outcome =
          (next, .ok fs.nextFileHandle) ∧
        next.writers = fs.writers.addWriter ino snapshot generation := by
  unfold StreamingFs.setupWriter
  split
  · exact Or.inl ⟨_, rfl⟩
  · refine Or.inr ⟨_, rfl, ?_⟩
    simp only [StreamingFs.writers, Writers.addWriter, Writers.setWriter]
    congr 1
    funext other
    by_cases here : other = fs.nextFileHandle
    · subst here
      simp [StreamingChannel.writer, StreamingChannel.new]
    · simp [here]

/-- The active writer, if there is one, has lost. -/
def Writers.supersede (seen : Writers) : Option FileHandle → Writers
  | none => seen
  | some old => seen.setState old (.failed "superseded by O_TRUNC reopen")

/-- The inode is the new writer's. -/
def Writers.markDirty (seen : Writers) (ino : Ino) (fh : FileHandle) :
    Writers :=
  let inodes := seen.inodes.modify ino (·.startRewrite)
  { seen.setWriter fh
      { seen.writer fh with
        dirtyGenerationAtOpen :=
          match inodes.get ino with
          | some entry => entry.dirtyGeneration
          | none => (seen.writer fh).dirtyGenerationAtOpen } with
    inodes }

/-- The handle counts, and becomes visible. -/
def Writers.openHandle (seen : Writers) (ino : Ino) (fh : FileHandle) :
    Writers :=
  { seen with
    inodes := seen.inodes.bumpOpenHandles ino
    openFiles := fh :: seen.openFiles }

theorem writers_markDirty (fs : StreamingFs) (ino : Ino) (fh : FileHandle) :
    (fs.markDirty ino fh).writers = fs.writers.markDirty ino fh := by
  simp only [StreamingFs.writers, StreamingFs.markDirty, Writers.markDirty,
    Writers.setWriter]
  congr 1
  funext other
  by_cases here : other = fh
  · subst here
    simp [StreamingChannel.writer]
    rfl
  · simp only [Function.update_of_ne here, StreamingFs.markSuperseded]
    split <;> rfl

/-- The handle is open and owns the current bytes of the inode. -/
structure Writers.IsCurrent (seen : Writers) (ino : Ino) (fh : FileHandle) :
    Prop where
  isOpen : fh ∈ seen.openFiles
  isIno : (seen.writer fh).ino = ino
  active : (seen.writer fh).IsActive
  generation : ∀ entry, seen.inodes.get ino = some entry →
    (seen.writer fh).dirtyGenerationAtOpen = entry.dirtyGeneration

theorem mem_activeHandles {fs : StreamingFs} {entry : InodeEntry}
    (found : fs.inodes.get ino = some entry) :
    fh ∈ fs.activeHandles ino entry.dirtyGeneration ↔
      fs.writers.IsCurrent ino fh := by
  simp only [StreamingFs.activeHandles, List.mem_filter, Bool.and_eq_true,
    decide_eq_true_eq, Bool.not_eq_true', StreamingChannel.ownsGeneration]
  constructor
  · rintro ⟨isOpen, ⟨isIno, generation⟩, active⟩
    refine ⟨isOpen, isIno, active, fun other also => ?_⟩
    obtain rfl := Option.some.inj (found.symm.trans also)
    exact generation
  · intro current
    exact ⟨current.isOpen, ⟨current.isIno, current.generation entry found⟩,
      current.active⟩

/-- The writer that an O_TRUNC open supersedes. -/
def Writers.Finds (seen : Writers) (ino : Ino) : Option FileHandle → Prop
  | some old => seen.IsCurrent ino old
  | none => ∀ entry, seen.inodes.get ino = some entry →
      ∀ fh, ¬ seen.IsCurrent ino fh

theorem streamingChannelFor_ends
    {post : Option FileHandle → Writers → Prop}
    (after : ∀ active, seen.Finds ino active → post active seen) :
    Ends (streamingChannelFor caller ino) seen post := by
  unfold streamingChannelFor
  apply ensures_bind.mpr
  apply ensures_read
  rintro first rfl
  split <;> rename_i isGeneration
  · apply after
    intro entry found
    have missing : first.inodes.get ino = none := by simpa using isGeneration
    rw [show first.writers.inodes.get ino = none from missing] at found
    cases found
  · obtain ⟨entry, found, rfl⟩ := Option.map_eq_some_iff.mp isGeneration
    apply ensures_perform
    intro choice second same _
    rw [same]
    apply after
    have foundNow : second.inodes.get ino = some entry := by
      rw [show second.inodes = first.inodes from congrArg Writers.inodes same]
      exact found
    rw [← same]
    unfold StreamingFs.firstActive
    split <;> rename_i isFirst
    · exact (mem_activeHandles foundNow).mp isFirst
    · cases listed : second.activeHandles ino entry.dirtyGeneration with
      | nil =>
          intro _ _ fh current
          have member := (mem_activeHandles foundNow).mpr current
          rw [listed] at member
          cases member
      | cons old others =>
          apply (mem_activeHandles foundNow).mp
          rw [listed]
          exact List.mem_cons_self

/-- The snapshot that the new writer gets. -/
def Writers.Inherits (seen : Writers) (ino : Ino) (snapshot : InodeSnapshot) :
    Option FileHandle → Prop
  | some old => snapshot = (seen.writer old).snapshot
  | none => ∃ entry, seen.inodes.get ino = some entry ∧
      snapshot = entry.snapshot

/-- What an O_TRUNC open leaves. -/
inductive Opens (seen : Writers) (ino : Ino) : Writers → Prop
  | same : Opens seen ino seen
  | opened (active : Option FileHandle) (snapshot : InodeSnapshot) :
      seen.Finds ino active → seen.Inherits ino snapshot active →
      Opens seen ino
        ((((seen.addWriter ino snapshot 0).supersede active).markDirty ino
          seen.nextFileHandle).openHandle ino seen.nextFileHandle)

theorem supersede_ends {active : Option FileHandle}
    {post : Unit → Writers → Prop} (after : post () (seen.supersede active)) :
    Ends (supersede ino fh active) seen post := by
  cases active with
  | none => exact after
  | some old =>
      unfold Streaming.supersede
      apply ensures_bind.mpr
      apply ensures_modify
      intro fs isSeen
      rw [StreamingFs.writers_failSuperseded, isSeen]
      exact fulfillCommitHook_ends after

theorem installWriter_ends {active : Option FileHandle}
    {post : Reply → Writers → Prop}
    (after : ∀ reply, post reply
      (((seen.supersede active).markDirty ino fh).openHandle ino fh)) :
    Ends (installWriter ino fh active) seen post := by
  unfold installWriter
  apply ensures_bind.mpr
  apply supersede_ends
  apply ensures_bind.mpr
  apply ensures_modify
  intro dirty isDirty
  rw [writers_markDirty, isDirty]
  apply ensures_bind.mpr
  apply ensures_modify
  intro bumped isBumped
  apply ensures_bind.mpr
  apply ensures_perform
  intro choice inserted isInserted _
  apply ensures_bind.mpr
  apply unlockStaging_ends
  have opened : (inserted.insertHandle fh).writers =
      ((seen.supersede active).markDirty ino fh).openHandle ino fh := by
    rw [← isBumped]
    change { inserted.writers with
      openFiles := fh :: inserted.writers.openFiles } = _
    rw [isInserted]
    rfl
  rw [opened]
  exact after _

theorem openLocked_ends {pid : Option Nat} :
    Ends (openLocked ino pid) seen fun _ after => Opens seen ino after := by
  unfold openLocked
  apply ensures_bind.mpr
  apply streamingChannelFor_ends
  intro active finds
  apply ensures_bind.mpr
  apply ensures_read
  rintro fs rfl
  split <;> rename_i isSnapshot
  · apply ensures_bind.mpr
    apply unlockStaging_ends
    exact .same
  rename_i snapshot
  have inherits : fs.writers.Inherits ino snapshot active := by
    cases active with
    | some old => exact (Option.some.inj isSnapshot).symm
    | none =>
        obtain ⟨entry, found, isEntry⟩ := Option.map_eq_some_iff.mp isSnapshot
        exact ⟨entry, found, isEntry.symm⟩
  apply ensures_bind.mpr
  apply ensures_perform
  intro outcome before isSeen _
  have next : before.nextFileHandle = fs.writers.nextFileHandle :=
    congrArg Writers.nextFileHandle isSeen
  rcases @setupWriter_cases ino before pid snapshot 0 outcome with
    ⟨errno, failed⟩ | ⟨after, done, isAfter⟩
  · rw [failed, isSeen]
    apply ensures_bind.mpr
    apply unlockStaging_ends
    exact .same
  · rw [done, isAfter, isSeen, next]
    apply installWriter_ends
    intro _
    exact .opened active snapshot finds inherits

theorem openTruncate_ends {me : CallId} {pid : Option Nat} :
    Ends (openTruncate me ino pid) seen fun _ after =>
      after = seen ∨ Opens seen ino after ∧
        ∀ entry, seen.inodes.get ino = some entry → entry.kind = .file := by
  unfold openTruncate
  apply ensures_bind.mpr
  apply ensures_read
  rintro fs rfl
  split <;> rename_i isFile
  · unfold openStreamingWrite
    apply ensures_bind.mpr
    apply awaitPendingCommit_ends
    intro waited
    split
    · exact Or.inl rfl
    · apply ensures_bind.mpr
      apply lockStaging_ends
      apply openLocked_ends.mono
      intro reply after opens
      refine Or.inr ⟨opens, fun entry found => ?_⟩
      have found : fs.inodes.get ino = some entry := found
      simpa [found] using isFile
  · exact Or.inl rfl

/-- A new dirty file, and nothing else. -/
structure NewFile (before : InodeTable) (ino : Ino) (generation : Nat)
    (after : InodeTable) : Prop where
  linked : after.AllLinked
  fresh : before.fileState ino = none
  here : ∃ snapshot, after.fileState ino = some (generation, snapshot)
  others : ∀ other, other ≠ ino →
    after.fileState other = before.fileState other

theorem createInode_cases {fs : StreamingFs} (linked : fs.inodes.AllLinked)
    (parent : Ino) {name : Name} (valid : ValidName name)
    (mode uid gid : Nat) (now : Time) :
    (∃ errno, fs.createInode parent name mode uid gid now =
        (fs, .error errno)) ∨
      ∃ ino generation inodes, NewFile fs.inodes ino generation inodes ∧
        fs.createInode parent name mode uid gid now =
          ({ fs with inodes }, .ok (ino, generation)) := by
  unfold StreamingFs.createInode
  split <;> rename_i found
  · exact Or.inl ⟨_, rfl⟩
  rename_i parentEntry
  split <;> rename_i directory
  · exact Or.inl ⟨_, rfl⟩
  split <;> rename_i taken
  · exact Or.inl ⟨_, rfl⟩
  right
  have free : fs.inodes.lookupChild parent name = none := by simpa using taken
  obtain ⟨inserted, isInserted, linkedThen, fresh, ⟨new, foundNew, file⟩,
      ⟨grown, foundGrown, isDirectory⟩, others⟩ :=
    linked.insert found (by simpa using directory) valid free 0 now none mode
      uid gid now
  have foundDirty : (inserted.modify fs.inodes.nextInode (·.setDirty)).get
      fs.inodes.nextInode = some new.setDirty :=
    InodeTable.get_modify_of_found foundNew _
  generalize isDirty : inserted.modify fs.inodes.nextInode (·.setDirty) = dirty
    at foundDirty
  have linkedDirty : dirty.AllLinked := by
    rw [← isDirty]
    exact linkedThen.modify _ fun entry => .of_fields rfl
  have distinct : parent ≠ fs.inodes.nextInode := by
    intro same
    rw [same, foundNew] at foundGrown
    obtain rfl := Option.some.inj foundGrown
    rw [file] at isDirectory
    cases isDirectory
  have foundParent : dirty.get parent = some grown := by
    rw [← isDirty, InodeTable.get_modify_of_ne _ distinct]
    exact foundGrown
  have touched : ∀ other,
      (dirty.touchParent parent now).fileState other =
        dirty.fileState other :=
    InodeTable.fileState_modify_directory foundParent (by simp [isDirectory])
      rfl
  refine ⟨fs.inodes.nextInode, new.setDirty.dirtyGeneration,
    dirty.touchParent parent now,
    ⟨?_, fresh, ⟨new.setDirty.snapshot, ?_⟩, ?_⟩, ?_⟩
  · exact linkedDirty.modify parent fun entry => .of_fields rfl
  · rw [touched]
    exact InodeTable.fileState_of_get foundDirty file
  · intro other old
    rw [touched, ← isDirty, InodeTable.fileState_modify_of_ne _ old,
      others other old]
  · rw [isInserted]
    dsimp only
    rw [isDirty, foundDirty]

/-- What a `create` leaves. -/
inductive Creates (seen : Writers) : Writers → Prop
  | same : Creates seen seen
  | dropped {ino generation : Nat} {inodes : InodeTable} :
      NewFile seen.inodes ino generation inodes →
      Creates seen { seen with inodes := inodes.remove ino }
  | created {ino generation : Nat} {inodes : InodeTable}
      (snapshot : InodeSnapshot) :
      NewFile seen.inodes ino generation inodes →
      snapshot.existedBefore = false →
      Creates seen
        ((Writers.addWriter { seen with inodes } ino snapshot
          generation).openHandle ino seen.nextFileHandle)

theorem create_ends {parent : Ino} {name : Name} {mode uid gid : Nat}
    {pid : Option Nat} (linked : seen.inodes.AllLinked)
    (valid : ValidName name) :
    Ends (create parent name mode uid gid pid) seen fun _ after =>
      Creates seen after := by
  unfold create
  apply ensures_bind.mpr
  unfold loadChildren
  apply ensures_hidden
  · intro choice fs
    rfl
  intro loaded
  split
  · exact .same
  apply ensures_bind.mpr
  apply ensures_perform
  rintro outcome fs rfl _
  rcases createInode_cases linked parent valid mode uid gid outcome.now with
    ⟨errno, failed⟩ | ⟨ino, generation, inodes, newFile, done⟩
  · rw [failed]
    exact .same
  rw [done]
  apply ensures_bind.mpr
  apply ensures_perform
  intro choice before isSeen _
  have next : before.nextFileHandle = fs.writers.nextFileHandle :=
    congrArg Writers.nextFileHandle isSeen
  rcases @setupWriter_cases ino before pid
      { xetHash := none
        size := 0
        mtime := choice.now
        pendingDeletes := []
        existedBefore := false } generation choice with
    ⟨errno, failed⟩ | ⟨after, set, isAfter⟩
  · rw [failed, isSeen]
    apply ensures_bind.mpr
    apply ensures_modify
    intro dropped isDropped
    change Creates fs.writers
      { dropped.writers with inodes := dropped.writers.inodes.remove ino }
    rw [isDropped]
    exact .dropped newFile
  · rw [set, isAfter, isSeen, next]
    apply ensures_bind.mpr
    apply ensures_modify
    intro bumped isBumped
    apply ensures_bind.mpr
    apply ensures_perform
    intro last inserted isInserted _
    change Creates fs.writers
      { inserted.writers with
        openFiles := fs.writers.nextFileHandle :: inserted.writers.openFiles }
    rw [isInserted]
    change Creates fs.writers
      { bumped.writers with
        inodes := bumped.writers.inodes.bumpOpenHandles ino
        openFiles := fs.writers.nextFileHandle :: bumped.writers.openFiles }
    rw [isBumped]
    exact .created _ newFile rfl

end

end HfMount.Streaming
