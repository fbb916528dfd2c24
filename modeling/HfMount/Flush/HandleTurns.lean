import HfMount.Flush.StagingGc

/-!
# What a step does to the open handles

Every handle of a staged file writes into its staging file.  One lemma for each
step says that this stays so, that no handle is lost, and who may mark the inode
dirty; only a commit can do more, when it makes the inode clean.
-/

namespace HfMount.Flush

open Inode Transition StagingCache

namespace FileOp

/-- An open with `O_TRUNC` that is preparing the staging file. -/
def truncates : FileOp → Bool
  | .preparing _ _ true | .filled _ _ true | .prepared true _ => true
  | _ => false

/-- An open without `O_TRUNC` that is about to replace the staging file. -/
def replaces : FileOp → Bool
  | .preparing _ _ false => true
  | _ => false

def isWriting : FileOp → Bool
  | .writing _ _ => true
  | _ => false

theorem holdsLock_of_truncates {op : FileOp} (truncates : op.truncates = true) :
    op.holdsLock = true := by
  cases op <;> simp_all [FileOp.truncates, FileOp.holdsLock]

theorem holdsLock_of_replaces {op : FileOp} (replaces : op.replaces = true) :
    op.holdsLock = true := by
  cases op <;> simp_all [FileOp.replaces, FileOp.holdsLock]

end FileOp

namespace StagedFile

/-- Every handle writes into the staging file, which no open will replace. -/
structure Attached (file : StagedFile) : Prop where
  staged : ∀ handle ∈ file.handles, file.staging = some handle
  reusable : file.handles ≠ [] → file.entry.isDirty = true ∨
    file.entry.stagingIsCurrent = true ∨
    ∃ id op, file.op id = some op ∧ op.truncates = true
  unopened : ∀ id op, file.op id = some op → op.replaces = true →
    file.handles = []

/-- What a step does about handles and the dirty flag.  `waits` says whether it
takes the lock, `begun` which write it begins. -/
structure Moves (waits : Bool) (begun : Option Nat)
    (before after : StagedFile) : Prop where
  keeps : ∀ handle ∈ before.handles, handle ∈ after.handles
  /-- Only a write or the holder of the lock marks the inode dirty. -/
  flags : (after.handles = before.handles ∧
      after.entry.isDirty = before.entry.isDirty) ∨
    (after.entry.isDirty = true ∧ ∃ id op, before.op id = some op ∧
      (op.holdsLock = true ∨ op.isWriting = true))
  lock : waits = false → before.lock = none → after.lock = none
  counted : after.entry.eviction.openHandles + before.handles.length =
    before.entry.eviction.openHandles + after.handles.length
  writing : ∀ id op, after.op id = some op → op.isWriting = true →
    before.op id = some op ∨ begun = some id

/-- A step that succeeds also leaves the handles attached. -/
structure Turn (waits : Bool) (begun : Option Nat) (before after : StagedFile) :
    Prop where
  attached : before.Attached → after.Attached
  moves : Moves waits begun before after

section

variable {before after : StagedFile} {id : Nat}

theorem attached_of_closed (closed : after.handles = []) : after.Attached := by
  refine ⟨?_, ?_, fun _ _ _ _ => closed⟩
  · intro handle member
    rw [closed] at member
    cases member
  · exact fun opened => absurd closed opened

theorem closed_of_unstaged (attached : before.Attached)
    (unstaged : before.staging = none) : before.handles = [] := by
  apply List.eq_nil_iff_forall_not_mem.mpr
  intro handle member
  have staged := attached.staged handle member
  rw [unstaged] at staged
  cases staged

/-- One operation goes on and leaves the handles and the staging file alone. -/
theorem Attached.goesOn (attached : before.Attached) {next : Option FileOp}
    (handles : after.handles = before.handles)
    (staging : after.staging = before.staging)
    (ops : after.op = Function.update before.op id next)
    (dirty : before.entry.isDirty = true → after.entry.isDirty = true)
    (current : before.entry.stagingIsCurrent = true →
      after.entry.isDirty = true ∨ after.entry.stagingIsCurrent = true)
    (truncates : ∀ op, before.op id = some op → op.truncates = true →
      after.entry.isDirty = true ∨
        ∃ new, next = some new ∧ new.truncates = true)
    (replaces : ∀ op, next = some op → op.replaces = true →
      before.handles = []) : after.Attached := by
  refine ⟨?_, ?_, ?_⟩
  · rw [handles, staging]
    exact attached.staged
  · intro opened
    rw [handles] at opened
    rcases attached.reusable opened with isDirty | isCurrent |
      ⟨other, op, found, truncating⟩
    · exact Or.inl (dirty isDirty)
    · rcases current isCurrent with isDirty | still
      · exact Or.inl isDirty
      · exact Or.inr (Or.inl still)
    · by_cases same : other = id
      · subst same
        rcases truncates op found truncating with isDirty | ⟨new, isNew, still⟩
        · exact Or.inl isDirty
        · refine Or.inr (Or.inr ⟨other, new, ?_, still⟩)
          rw [ops, Function.update_self, isNew]
      · refine Or.inr (Or.inr ⟨other, op, ?_, truncating⟩)
        rw [ops, Function.update_of_ne same, found]
  · intro other op found replacing
    rw [handles]
    by_cases same : other = id
    · subst same
      rw [ops, Function.update_self] at found
      exact replaces op found replacing
    · rw [ops, Function.update_of_ne same] at found
      exact attached.unopened other op found replacing

/-- The same for a whole turn that changes no flag. -/
theorem turn_goesOn {waits : Bool} {begun : Option Nat} {next : Option FileOp}
    (handles : after.handles = before.handles)
    (staging : after.staging = before.staging)
    (entry : after.entry = before.entry)
    (ops : after.op = Function.update before.op id next)
    (truncates : ∀ op, before.op id = some op → op.truncates = true →
      ∃ new, next = some new ∧ new.truncates = true)
    (replaces : ∀ op, next = some op → op.replaces = true →
      before.Attached → before.handles = [])
    (lock : waits = false → before.lock = none → after.lock = none)
    (writing : ∀ op, next = some op → op.isWriting = true →
      begun = some id) : Turn waits begun before after := by
  refine ⟨?_, by rw [handles]; exact fun _ member => member,
    Or.inl ⟨handles, by rw [entry]⟩, lock, by rw [entry, handles], ?_⟩
  · intro attached
    apply attached.goesOn handles staging ops
    · rw [entry]
      exact fun isDirty => isDirty
    · rw [entry]
      exact Or.inr
    · exact fun op found truncating => Or.inr (truncates op found truncating)
    · exact fun op isNext replacing => replaces op isNext replacing attached
  · intro other op found isWriting
    by_cases same : other = id
    · subst same
      rw [ops, Function.update_self] at found
      exact Or.inr (writing op found isWriting)
    · rw [ops, Function.update_of_ne same] at found
      exact Or.inl found

/-- A flush that only moves on. -/
theorem turn_sameOps {waits : Bool} {begun : Option Nat}
    (handles : after.handles = before.handles)
    (staging : after.staging = before.staging)
    (entry : after.entry = before.entry) (ops : after.op = before.op)
    (lock : waits = false → before.lock = none → after.lock = none) :
    Turn waits begun before after := by
  refine ⟨?_, by rw [handles]; exact fun _ member => member,
    Or.inl ⟨handles, by rw [entry]⟩, lock, by rw [entry, handles], ?_⟩
  · intro attached
    refine ⟨?_, ?_, ?_⟩
    · rw [handles, staging]
      exact attached.staged
    · rw [handles, entry, ops]
      exact attached.reusable
    · rw [handles, ops]
      exact attached.unopened
  · intro other op found _
    rw [ops] at found
    exact Or.inl found

@[simp] theorem placeFile_handles (file : StagedFile) (replaced : Bool)
    (content : Bytes) :
    (file.placeFile replaced content).handles = file.handles := by
  unfold placeFile
  split <;> rfl

/-- Rewriting the staging file in place. -/
theorem placeFile_staging {file : StagedFile} {staged : Nat}
    (found : file.staging = some staged) (content : Bytes) :
    (file.placeFile false content).staging = file.staging := by
  unfold placeFile
  simp only [found]

/-- Nothing is open, and nothing is opened. -/
theorem turn_of_closed {waits : Bool} {begun : Option Nat}
    {next : Option FileOp} (closed : before.Attached → before.handles = [])
    (handles : after.handles = before.handles)
    (entry : after.entry = before.entry)
    (ops : after.op = Function.update before.op id next)
    (lock : waits = false → before.lock = none → after.lock = none)
    (writing : ∀ op, next = some op → op.isWriting = true →
      begun = some id) : Turn waits begun before after := by
  refine ⟨fun attached => attached_of_closed (handles.trans (closed attached)),
    by rw [handles]; exact fun _ member => member,
    Or.inl ⟨handles, by rw [entry]⟩, lock, by rw [entry, handles], ?_⟩
  intro other op found isWriting
  by_cases same : other = id
  · subst same
    rw [ops, Function.update_self] at found
    exact Or.inr (writing op found isWriting)
  · rw [ops, Function.update_of_ne same] at found
    exact Or.inl found

/-- The operation rewrites the staging file in place, or makes the first
one. -/
theorem turn_places {waits : Bool} {begun : Option Nat} {content : Bytes}
    {next : Option FileOp}
    (handles : after.handles = before.handles)
    (staging : after.staging = (before.placeFile false content).staging)
    (entry : after.entry = before.entry)
    (ops : after.op = Function.update before.op id next)
    (truncates : ∀ op, before.op id = some op → op.truncates = true →
      ∃ new, next = some new ∧ new.truncates = true)
    (replaces : ∀ op, next = some op → op.replaces = false)
    (lock : waits = false → before.lock = none → after.lock = none)
    (writing : ∀ op, next = some op → op.isWriting = true →
      begun = some id) : Turn waits begun before after := by
  cases found : before.staging with
  | none =>
      exact turn_of_closed (fun attached => closed_of_unstaged attached found)
        handles entry ops lock writing
  | some staged =>
      rw [placeFile_staging found] at staging
      apply turn_goesOn handles staging entry ops truncates _ lock writing
      intro op isNext replacing
      rw [replaces op isNext] at replacing
      cases replacing

/-! ## The turns of opens -/

theorem turn_openStart {truncate : Bool}
    (stepped : before.openStart id truncate = some after) :
    Turn false none before after := by
  unfold openStart at stepped
  split at stepped <;> rename_i idle
  · obtain rfl := Option.some.inj stepped
    refine turn_goesOn rfl rfl rfl rfl ?_ ?_ ?_ ?_
    · simp [idle]
    · rintro _ ⟨⟩ ⟨⟩
    · exact fun _ free => free
    · rintro _ ⟨⟩ ⟨⟩
  · cases stepped

/-- Without an operation under the lock, what is open can be reused. -/
theorem Attached.closed_of_not_reused (attached : before.Attached)
    (locked : Locked before) (free : before.lock = none)
    (notReused : before.canReuseStaging false = false) :
    before.handles = [] := by
  by_contra opened
  have idle : ¬ ∃ id op, before.op id = some op ∧ op.truncates = true := by
    rintro ⟨other, op, found, truncating⟩
    have held := locked.op other op found
      (FileOp.holdsLock_of_truncates truncating)
    rw [free] at held
    cases held
  cases staging : before.staging with
  | none => exact opened (closed_of_unstaged attached staging)
  | some staged =>
      rcases attached.reusable opened with dirty | current | truncating
      · simp [canReuseStaging, dirty, staging] at notReused
      · simp [canReuseStaging, current, staging] at notReused
      · exact idle truncating

theorem turn_openEnter (locked : Locked before)
    (stepped : before.openEnter id = some after) :
    Turn true none before after := by
  unfold openEnter at stepped
  split at stepped
  · rename_i hash size truncate waiting free
    split at stepped <;> rename_i reuse
    · obtain rfl := Option.some.inj stepped
      refine turn_goesOn rfl rfl rfl rfl ?_ ?_ ?_ ?_
      · simp [waiting, FileOp.truncates]
      · rintro _ ⟨⟩ ⟨⟩
      · rintro ⟨⟩
      · rintro _ ⟨⟩ ⟨⟩
    · obtain rfl := Option.some.inj stepped
      refine ⟨?_, fun _ member => member, Or.inl ⟨rfl, rfl⟩, by rintro ⟨⟩, rfl,
        ?_⟩
      · intro attached
        cases truncate with
        | false =>
            apply attached_of_closed
            apply attached.closed_of_not_reused locked free
            simpa using reuse
        | true =>
            refine ⟨attached.staged, ?_, ?_⟩
            · exact fun _ => Or.inr (Or.inr
                ⟨id, .preparing hash size true, Function.update_self _ _ _, rfl⟩)
            · intro other op found replacing
              by_cases same : other = id
              · subst same
                simp only [setOp, Function.update_self,
                  Option.some.injEq] at found
                subst found
                cases replacing
              · simp only [setOp, Function.update_of_ne same] at found
                exact attached.unopened other op found replacing
      · intro other op found isWriting
        by_cases same : other = id
        · subst same
          simp only [setOp, Function.update_self, Option.some.injEq] at found
          subst found
          cases isWriting
        · simp only [setOp, Function.update_of_ne same] at found
          exact Or.inl found
  · cases stepped

theorem turn_openFill {store : ContentStore} {replaced : Bool}
    (stepped : before.openFill store id replaced = some after) :
    Turn false none before after := by
  unfold openFill at stepped
  split at stepped
  · rename_i hash size truncate preparing
    split at stepped <;> rename_i needed
    · have kept : truncate = false := by
        cases truncate with
        | false => rfl
        | true => simp [needsDownload] at needed
      subst kept
      have closed : before.Attached → before.handles = [] :=
        fun attached => attached.unopened id _ preparing rfl
      split at stepped <;> obtain rfl := Option.some.inj stepped
      · apply turn_of_closed closed
        · simp [setOp]
        · simp [setOp]
        · simp only [setOp, placeFile_op]
          rfl
        · intro _ free
          simpa [setOp] using free
        · rintro _ ⟨⟩ ⟨⟩
      · refine turn_of_closed closed rfl rfl rfl ?_ ?_
        · exact fun _ _ => rfl
        · rintro _ ⟨⟩
    · obtain rfl := Option.some.inj stepped
      apply turn_places
      · simp [setOp]
      · rfl
      · simp [setOp]
      · simp only [setOp, placeFile_op]
        rfl
      · intro op found truncating
        obtain rfl := Option.some.inj (preparing.symm.trans found)
        cases truncate with
        | false => cases truncating
        | true => exact ⟨_, rfl, rfl⟩
      · rintro _ ⟨⟩
        rfl
      · intro _ free
        simpa [setOp] using free
      · rintro _ ⟨⟩ ⟨⟩
  · cases stepped

/-- A download is done; the cache flag may be set. -/
theorem turn_marks {hash : Hash} {size : Nat} {truncate : Bool}
    (filled : before.op id = some (.filled hash size truncate))
    {entry : InodeEntry} (dirty : entry.isDirty = before.entry.isDirty)
    (current : before.entry.stagingIsCurrent = true →
      entry.stagingIsCurrent = true)
    (eviction : entry.eviction = before.entry.eviction) :
    Turn false none before
      { before.setOp id (some (.prepared truncate true)) with entry } := by
  refine ⟨?_, fun _ member => member, Or.inl ⟨rfl, dirty⟩, fun _ free => free,
    ?_, ?_⟩
  · intro attached
    refine attached.goesOn rfl rfl rfl ?_ ?_ ?_ ?_
    · exact fun isDirty => dirty.trans isDirty
    · exact fun isCurrent => Or.inr (current isCurrent)
    · intro op found truncating
      obtain rfl := Option.some.inj (filled.symm.trans found)
      cases truncate with
      | false => cases truncating
      | true => exact Or.inr ⟨_, rfl, rfl⟩
    · rintro _ ⟨⟩ ⟨⟩
  · dsimp only
    rw [eviction]
    rfl
  · intro other op found isWriting
    by_cases same : other = id
    · subst same
      simp only [setOp, Function.update_self, Option.some.injEq] at found
      subst found
      cases isWriting
    · simp only [setOp, Function.update_of_ne same] at found
      exact Or.inl found

theorem turn_openMark (stepped : before.openMark id = some after) :
    Turn false none before after := by
  unfold openMark at stepped
  split at stepped
  · rename_i hash size truncate filled
    obtain rfl := Option.some.inj stepped
    apply turn_marks filled
    · unfold markedEntry
      dsimp only
      split <;> rfl
    · intro current
      unfold markedEntry
      dsimp only
      split
      · rfl
      · exact current
    · unfold markedEntry
      dsimp only
      split <;> rfl
  · cases stepped

theorem turn_encryptedMark
    (stepped : before.encryptedMark id = some after) :
    Turn false none before after := by
  unfold encryptedMark at stepped
  split at stepped
  · rename_i filled
    obtain rfl := Option.some.inj stepped
    exact turn_marks filled rfl (fun _ => rfl) rfl
  · cases stepped

/-- A new handle writes into the staging file, and marks the inode dirty. -/
theorem turn_opens (locked : Locked before) {truncate changed : Bool}
    {opened : Nat} {entry : InodeEntry}
    (prepared : before.op id = some (.prepared truncate changed))
    (staged : before.staging = some opened) (dirty : entry.isDirty = true)
    (counted : entry.eviction.openHandles =
      before.entry.eviction.openHandles + 1) :
    Turn false none before
      { before.finishOp id with
        entry
        handles := opened :: before.handles } := by
  have mine := locked.op id _ prepared rfl
  refine ⟨?_, fun _ member => List.mem_cons_of_mem _ member,
    Or.inr ⟨dirty, id, _, prepared, Or.inl rfl⟩, fun _ _ => rfl, ?_, ?_⟩
  · intro attached
    refine ⟨?_, fun _ => Or.inl dirty, ?_⟩
    · intro handle member
      rcases List.mem_cons.mp member with rfl | old
      · exact staged
      · exact attached.staged handle old
    · intro other op found replacing
      by_cases same : other = id
      · subst same
        simp [finishOp, setOp] at found
      · simp only [finishOp, setOp, Function.update_of_ne same] at found
        have held := locked.op other op found
          (FileOp.holdsLock_of_replaces replacing)
        rw [mine] at held
        cases held
        exact absurd rfl same
  · simp only [counted, List.length_cons]
    omega
  · intro other op found _
    by_cases same : other = id
    · subst same
      simp [finishOp, setOp] at found
    · simp only [finishOp, setOp, Function.update_of_ne same] at found
      exact Or.inl found

theorem isDirty_openedEntry (entry : InodeEntry) (truncate : Bool)
    (now : Time) : (openedEntry entry truncate now).isDirty = true := by
  rw [InodeEntry.isDirty_iff]
  exact entry.setDirty_pos

/-- The holder of the lock gives up, with nothing open. -/
theorem turn_finishOp {waits : Bool} {begun : Option Nat}
    (closed : before.Attached → before.handles = []) :
    Turn waits begun before (before.finishOp id) := by
  refine turn_of_closed closed rfl rfl rfl ?_ ?_
  · exact fun _ _ => rfl
  · rintro _ ⟨⟩

theorem turn_openDone (locked : Locked before) {now : Time}
    (stepped : before.openDone id now = some after) :
    Turn false none before after := by
  unfold openDone at stepped
  split at stepped
  · rename_i prepared staged
    obtain rfl := Option.some.inj stepped
    exact turn_opens locked prepared staged (isDirty_openedEntry _ _ _) rfl
  · rename_i unstaged
    obtain rfl := Option.some.inj stepped
    exact turn_finishOp fun attached => closed_of_unstaged attached unstaged
  · cases stepped

theorem turn_encryptedEnter (locked : Locked before)
    (stepped : before.encryptedEnter id = some after) :
    Turn true none before after := by
  unfold encryptedEnter at stepped
  split at stepped
  · rename_i hash size truncate waiting free
    obtain rfl := Option.some.inj stepped
    refine turn_goesOn rfl rfl rfl rfl ?_ ?_ ?_ ?_
    · simp [waiting, FileOp.truncates]
    · intro op isNext replacing attached
      split at isNext <;> rename_i reuse
      · obtain rfl := Option.some.inj isNext
        cases replacing
      · obtain rfl := Option.some.inj isNext
        cases truncate with
        | false =>
            apply attached.closed_of_not_reused locked free
            simpa using reuse
        | true => cases replacing
    · rintro ⟨⟩
    · intro op isNext isWriting
      split at isNext <;> obtain rfl := Option.some.inj isNext <;>
        cases isWriting
  · cases stepped

theorem turn_encryptedFill {store : ContentStore} {container : Bytes} {replaced : Bool}
    (stepped : before.encryptedFill store container id replaced = some after) :
    Turn false none before after := by
  unfold encryptedFill at stepped
  split at stepped
  · rename_i hash size truncate preparing
    split at stepped <;> rename_i needed
    · have kept : truncate = false := by
        cases truncate with
        | false => rfl
        | true => simp [needsDownload] at needed
      subst kept
      have closed : before.Attached → before.handles = [] :=
        fun attached => attached.unopened id _ preparing rfl
      split at stepped <;> obtain rfl := Option.some.inj stepped
      · apply turn_of_closed closed
        · simp [setOp]
        · simp [setOp]
        · simp only [setOp, placeFile_op]
          rfl
        · intro _ free
          simpa [setOp] using free
        · rintro _ ⟨⟩ ⟨⟩
      · exact turn_finishOp closed
    · obtain rfl := Option.some.inj stepped
      apply turn_places
      · simp [setOp]
      · rfl
      · simp [setOp]
      · simp only [setOp, placeFile_op]
        rfl
      · intro op found truncating
        obtain rfl := Option.some.inj (preparing.symm.trans found)
        cases truncate with
        | false => cases truncating
        | true => exact ⟨_, rfl, rfl⟩
      · rintro _ ⟨⟩
        rfl
      · intro _ free
        simpa [setOp] using free
      · rintro _ ⟨⟩ ⟨⟩
  · cases stepped

theorem isDirty_encryptedEntry (entry : InodeEntry) (container : Bytes)
    (truncate : Bool) (now : Time) :
    (encryptedEntry entry container truncate now).isDirty = true :=
  isDirty_openedEntry entry truncate now

theorem turn_encryptedDone (locked : Locked before) {container : Bytes}
    {now : Time}
    (stepped : before.encryptedDone container id now = some after) :
    Turn false none before after := by
  unfold encryptedDone at stepped
  split at stepped
  · rename_i prepared staged
    obtain rfl := Option.some.inj stepped
    exact turn_opens locked prepared staged
      (isDirty_encryptedEntry _ _ _ _) rfl
  · rename_i unstaged
    obtain rfl := Option.some.inj stepped
    exact turn_finishOp fun attached => closed_of_unstaged attached unstaged
  · cases stepped

/-! ## The turns of truncations and writes -/

theorem turn_setattr {newSize : Nat}
    (stepped : before.setattr id newSize = some after) :
    Turn false none before after := by
  unfold setattr at stepped
  split at stepped <;> rename_i idle
  · obtain rfl := Option.some.inj stepped
    refine turn_goesOn rfl rfl rfl rfl ?_ ?_ ?_ ?_
    · simp [idle]
    · rintro _ ⟨⟩ ⟨⟩
    · exact fun _ free => free
    · rintro _ ⟨⟩ ⟨⟩
  · cases stepped

theorem turn_setattrEnter {store : ContentStore}
    (stepped : before.setattrEnter store id = some after) :
    Turn true none before after := by
  unfold setattrEnter at stepped
  split at stepped
  · rename_i newSize waiting free
    dsimp only at stepped
    have ready : (before.Attached → before.handles = []) →
        ∀ replaced content changed, Turn true none before
          { (before.placeFile replaced content).setOp id
              (some (.truncateReady newSize changed)) with
            lock := some (.op id) } := by
      intro closed replaced content changed
      apply turn_of_closed closed
      · simp [setOp]
      · simp [setOp]
      · simp only [setOp, placeFile_op]
        rfl
      · rintro ⟨⟩
      · rintro _ ⟨⟩ ⟨⟩
    split at stepped <;> rename_i staged
    · obtain rfl := Option.some.inj stepped
      refine turn_goesOn rfl rfl rfl rfl ?_ ?_ ?_ ?_
      · simp [waiting, FileOp.truncates]
      · rintro _ ⟨⟩ ⟨⟩
      · rintro ⟨⟩
      · rintro _ ⟨⟩ ⟨⟩
    · have closed : before.Attached → before.handles = [] :=
        fun attached => closed_of_unstaged attached (by simpa using staged)
      split at stepped
      · split at stepped <;> obtain rfl := Option.some.inj stepped
        · exact ready closed _ _ _
        · refine turn_of_closed closed rfl rfl rfl ?_ ?_
          · rintro ⟨⟩
          · rintro _ ⟨⟩
      · obtain rfl := Option.some.inj stepped
        exact ready closed _ _ _
  · cases stepped

/-- A change of the staging file in place that marks the inode dirty. -/
theorem turn_dirties {old : FileOp} (found : before.op id = some old)
    (marks : old.holdsLock = true ∨ old.isWriting = true)
    (handles : after.handles = before.handles)
    (staging : after.staging = before.staging)
    (dirty : after.entry.isDirty = true)
    (eviction : after.entry.eviction = before.entry.eviction)
    (ops : after.op = Function.update before.op id none)
    (lock : before.lock = none → after.lock = none) :
    Turn false none before after := by
  refine ⟨?_, by rw [handles]; exact fun _ member => member,
    Or.inr ⟨dirty, id, old, found, marks⟩, fun _ => lock,
    by rw [eviction, handles], ?_⟩
  · intro attached
    refine ⟨?_, fun _ => Or.inl dirty, ?_⟩
    · rw [handles, staging]
      exact attached.staged
    · intro other op isOp replacing
      rw [handles]
      by_cases same : other = id
      · subst same
        rw [ops, Function.update_self] at isOp
        cases isOp
      · rw [ops, Function.update_of_ne same] at isOp
        exact attached.unopened other op isOp replacing
  · intro other op isOp _
    by_cases same : other = id
    · subst same
      rw [ops, Function.update_self] at isOp
      cases isOp
    · rw [ops, Function.update_of_ne same] at isOp
      exact Or.inl isOp

theorem turn_setattrApply {now : Time}
    (stepped : before.setattrApply id now = some after) :
    Turn false none before after := by
  unfold setattrApply at stepped
  split at stepped
  · rename_i ready staged
    obtain rfl := Option.some.inj stepped
    apply turn_dirties ready (Or.inl rfl)
    · simp [finishOp, setOp]
    · exact placeFile_staging staged _
    · rw [InodeEntry.isDirty_iff]
      exact before.entry.setDirty_pos
    · rfl
    · simp only [finishOp, setOp, placeFile_op]
    · exact fun _ => rfl
  · rename_i unstaged
    obtain rfl := Option.some.inj stepped
    exact turn_finishOp fun attached => closed_of_unstaged attached unstaged
  · cases stepped

theorem turn_pwrite {handle offset : Nat} {data : Bytes}
    (stepped : before.pwrite id handle offset data = some after) :
    Turn false (some id) before after ∧ before.handles ≠ [] := by
  unfold pwrite at stepped
  split at stepped <;> rename_i idle
  · split at stepped <;> rename_i opened
    · obtain rfl := Option.some.inj stepped
      refine ⟨turn_goesOn rfl rfl rfl rfl ?_ ?_ ?_ ?_, List.ne_nil_of_mem opened⟩
      · simp [idle]
      · rintro _ ⟨⟩ ⟨⟩
      · exact fun _ free => free
      · exact fun _ _ _ => rfl
    · cases stepped
  · cases stepped

theorem turn_encryptedWrite {newEnd : Nat} {content : Bytes}
    (stepped : before.encryptedWrite id newEnd content = some after) :
    Turn false (some id) before after ∧
      before.handles ≠ [] := by
  unfold encryptedWrite at stepped
  split at stepped
  · rename_i staged idle isStaged
    split at stepped <;> rename_i opened
    · cases stepped
    obtain rfl := Option.some.inj stepped
    constructor
    · apply turn_places
      · simp [setOp]
      · rfl
      · simp [setOp]
      · simp only [setOp, placeFile_op]
        rfl
      · simp [idle]
      · rintro _ ⟨⟩
        rfl
      · intro _ free
        simpa [setOp] using free
      · exact fun _ _ _ => rfl
    · simpa using opened
  · cases stepped

theorem turn_writeDone
    (stepped : before.writeDone id = some after) :
    Turn false none before after ∧ after.op id = none := by
  unfold writeDone at stepped
  split at stepped
  · rename_i writing
    obtain rfl := Option.some.inj stepped
    refine ⟨?_, Function.update_self _ _ _⟩
    refine turn_dirties writing (Or.inr rfl) rfl rfl ?_ rfl rfl ?_
    · rw [InodeEntry.isDirty_iff]
      exact InodeEntry.setDirty_pos _
    · exact fun free => free
  · cases stepped

theorem turn_cancel {old : FileOp}
    (found : before.op id = some old) (free : old.holdsLock = false) :
    Turn false none before (before.setOp id none) := by
  refine turn_goesOn rfl rfl rfl rfl ?_ ?_ ?_ ?_
  · intro op isOp truncating
    obtain rfl := Option.some.inj (found.symm.trans isOp)
    rw [FileOp.holdsLock_of_truncates truncating] at free
    cases free
  · rintro _ ⟨⟩
  · exact fun _ free => free
  · rintro _ ⟨⟩

/-! ## Failures and news from the remote -/

/-- An operation ends without having opened or written anything. -/
theorem moves_ended {waits : Bool} (handles : after.handles = before.handles)
    (entry : after.entry = before.entry)
    (ops : after.op = Function.update before.op id none)
    (lock : before.lock = none → after.lock = none) :
    Moves waits none before after := by
  refine ⟨by rw [handles]; exact fun _ member => member,
    Or.inl ⟨handles, by rw [entry]⟩, fun _ => lock, by rw [entry, handles], ?_⟩
  intro other op found _
  by_cases same : other = id
  · subst same
    rw [ops, Function.update_self] at found
    cases found
  · rw [ops, Function.update_of_ne same] at found
    exact Or.inl found

/-- The remote state of the entry changes. -/
theorem moves_entry {entry : InodeEntry}
    (generation : entry.dirtyGeneration = before.entry.dirtyGeneration)
    (eviction : entry.eviction = before.entry.eviction) :
    Moves false none before { before with entry } := by
  refine ⟨fun _ member => member, Or.inl ⟨rfl, ?_⟩, fun _ free => free, ?_,
    fun _ _ found _ => Or.inl found⟩
  · simp only [InodeEntry.isDirty, generation]
  · dsimp only
    rw [eviction]

/-! ## The turns of a flush -/

/-- The commit at the end of a flush: a clean inode has a current cache. -/
theorem turn_commits {store : ContentStore} {item : FlushItem} {content : Bytes}
    {now : Time} (isItem : before.flush.item = some item)
    (entry : after.entry = before.entry.applyCommit (store.hash content)
      content.length item.dirtyGeneration now)
    (handles : after.handles = before.handles)
    (staging : after.staging = before.staging) (ops : after.op = before.op)
    (lock : after.lock = before.lock) :
    Turn false none before after ∨
      (StagingGc.clearsDirty before = true ∧
        (before.Attached → after.Attached) ∧
        after.entry.eviction = before.entry.eviction) := by
  by_cases same : before.entry.dirtyGeneration = item.dirtyGeneration
  · right
    have cleared : after.entry.stagingIsCurrent = true ∧
        after.entry.eviction = before.entry.eviction := by
      rw [entry, InodeEntry.applyCommit_of_eq same]
      exact ⟨rfl, rfl⟩
    refine ⟨?_, ?_, cleared.2⟩
    · rw [StagingGc.clearsDirty, isItem]
      simp [same]
    · intro attached
      refine ⟨?_, fun _ => Or.inr (Or.inl cleared.1), ?_⟩
      · rw [handles, staging]
        exact attached.staged
      · rw [handles, ops]
        exact attached.unopened
  · left
    have kept : after.entry.isDirty = before.entry.isDirty ∧
        after.entry.stagingIsCurrent = before.entry.stagingIsCurrent ∧
        after.entry.eviction = before.entry.eviction := by
      rw [entry, InodeEntry.applyCommit_of_ne same]
      exact ⟨rfl, rfl, rfl⟩
    refine ⟨?_, by rw [handles]; exact fun _ member => member,
      Or.inl ⟨handles, kept.1⟩, ?_, ?_, ?_⟩
    · intro attached
      refine ⟨?_, ?_, ?_⟩
      · rw [handles, staging]
        exact attached.staged
      · rw [handles, kept.1, kept.2.1, ops]
        exact attached.reusable
      · rw [handles, ops]
        exact attached.unopened
    · rw [lock]
      exact fun _ free => free
    · rw [kept.2.2, handles]
    · rw [ops]
      exact fun _ _ found _ => Or.inl found

/-- Every other step of a flush. -/
theorem turn_flush (locked : Locked before) {store : ContentStore}
    {event : FileEvent}
    (isFlush : event = .flushLock ∨ event = .flushSnapshot ∨
      (∃ content, event = .uploadOk content) ∨ event = .uploadFail ∨
      event = .flushUnlock ∨ event = .hubOk ∨ event = .hubFail)
    (stepped : before.step store event = some after) :
    Turn (decide (event = .flushLock)) none before after := by
  have free : ∀ {waits : Bool}, before.flush.holdsLock = true →
      waits = false → before.lock = none → after.lock = none := by
    intro waits holds _ isFree
    have held := locked.flush holds
    rw [isFree] at held
    cases held
  rcases isFlush with rfl | rfl | ⟨content, rfl⟩ | rfl | rfl | rfl | rfl
  · simp only [step, flushLock] at stepped
    split at stepped
    · obtain rfl := Option.some.inj stepped
      exact turn_sameOps rfl rfl rfl rfl (by rintro ⟨⟩)
    · cases stepped
  · simp only [step, flushSnapshot] at stepped
    split at stepped
    · rename_i phase
      have holds : before.flush.holdsLock = true := by rw [phase]; rfl
      split at stepped <;> obtain rfl := Option.some.inj stepped
      · exact turn_sameOps rfl rfl rfl rfl (free holds)
      · exact turn_sameOps rfl rfl rfl rfl fun _ _ => rfl
    · cases stepped
  · simp only [step, uploadOk] at stepped
    split at stepped
    · split at stepped
      · cases stepped
      obtain rfl := Option.some.inj stepped
      exact turn_sameOps rfl rfl rfl rfl fun _ isFree => isFree
    · cases stepped
  · simp only [step, uploadFail] at stepped
    split at stepped
    · obtain rfl := Option.some.inj stepped
      exact turn_sameOps rfl rfl rfl rfl fun _ _ => rfl
    · cases stepped
  · simp only [step, flushUnlock] at stepped
    split at stepped
    · obtain rfl := Option.some.inj stepped
      exact turn_sameOps rfl rfl rfl rfl fun _ _ => rfl
    · cases stepped
  · simp only [step, hubOk] at stepped
    split at stepped
    · split at stepped
      · cases stepped
      obtain rfl := Option.some.inj stepped
      exact turn_sameOps rfl rfl rfl rfl fun _ isFree => isFree
    · cases stepped
  · simp only [step, hubFail] at stepped
    split at stepped
    · split at stepped
      · cases stepped
      obtain rfl := Option.some.inj stepped
      exact turn_sameOps rfl rfl rfl rfl fun _ isFree => isFree
    · cases stepped

end

end StagedFile

end HfMount.Flush
