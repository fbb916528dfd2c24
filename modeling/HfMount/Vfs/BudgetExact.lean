import HfMount.Vfs.BudgetFills
import HfMount.Vfs.BudgetWrites

/-!
# When the budget of the staging directory is exact

In a run whose steps all tell the counter what they do, the counter holds the
sum of the lengths of the staging files whenever no write is in progress.  The
creation of an encrypted file tells it nothing of the headers of the
container.
-/

namespace HfMount.Vfs

open SlashPath Inode Flush Encryption Transition

namespace StagingRun

open StagingDir

theorem Sound.tryRemove {state next : StagingRun} (sound : state.Sound)
    {ino : Ino} {works : Bool} (accurate : works → state.Settled ino)
    (mode : next.mode = state.mode) (writes : next.writes = state.writes)
    (table : next.table = state.table)
    (dir : next.dir = state.dir.tryRemove ino works) : next.Sound := by
  have keeps : state.KeepsCharges next.table := by
    intro write _
    rw [table]
  rcases state.dir.tryRemove_cases ino works with
    unchanged | ⟨removes, sizes, bytes⟩
  · exact sound.sameFiles mode writes keeps (dir.trans unchanged)
  · rw [← dir] at sizes bytes
    have settled := accurate removes
    apply sound.resizedSettled mode writes _ settled
      (settled.congr writes keeps)
    · intro other distinct
      rw [sizes, if_neg distinct]
    · rw [bytes, sizes, if_pos rfl]
    · apply le_trans _ sound.fits
      apply Budget.total_mono
      intro other
      rw [weightAt_length, weightAt_length, sizes]
      split
      · exact Nat.zero_le _
      · exact le_rfl
    · intro write listed _
      exact keeps write listed

/-- Whatever becomes of the rest, the files and the writes stay. -/
structure SameDir (state next : StagingRun) : Prop where
  mode : next.mode = state.mode
  writes : next.writes = state.writes
  dir : next.dir = state.dir

theorem SameDir.sound {state next : StagingRun} (same : state.SameDir next)
    (sound : state.Sound) (keeps : state.KeepsCharges next.table) :
    next.Sound :=
  sound.sameFiles same.mode same.writes keeps same.dir

theorem sameDir_rename (state : StagingRun) (info : RenameInfo)
    (request : RenameRequest) (now : Time) :
    state.SameDir (state.rename info request now) := by
  unfold rename
  split
  · exact ⟨rfl, rfl, rfl⟩
  · split
    · exact ⟨rfl, rfl, rfl⟩
    · exact ⟨rfl, rfl, rfl⟩

theorem sameDir_lastRelease (state : StagingRun) (ino : Ino) :
    state.SameDir (state.lastRelease ino) := by
  unfold lastRelease
  dsimp only
  split
  · exact ⟨rfl, rfl, rfl⟩
  · exact ⟨rfl, rfl, rfl⟩

theorem sameDir_forget (state : StagingRun) (ino : Ino) (count : Nat) :
    state.SameDir (state.forget ino count) := by
  unfold forget
  dsimp only
  split
  · exact ⟨rfl, rfl, rfl⟩
  · split
    · exact ⟨rfl, rfl, rfl⟩
    · exact ⟨rfl, rfl, rfl⟩

theorem sameDir_gcChoose (state : StagingRun) (ino : Ino) :
    state.SameDir (state.gcChoose ino) := by
  unfold gcChoose
  split
  · exact ⟨rfl, rfl, rfl⟩
  · exact ⟨rfl, rfl, rfl⟩

theorem table_gcChoose (state : StagingRun) (ino : Ino) :
    (state.gcChoose ino).table = state.table := by
  unfold gcChoose
  split <;> rfl

/-- The table after a release does not depend on the handles. -/
theorem table_lastRelease (state : StagingRun) (handles : List WriteHandle)
    (ino : Ino) :
    ({ state with handles }.lastRelease ino).table =
      (state.lastRelease ino).table := by
  unfold lastRelease
  dsimp only
  split <;> rfl

theorem Sound.release {state next : StagingRun} (sound : state.Sound)
    {handle : WriteHandle}
    (accurate : state.KeepsCharges (state.lastRelease handle.ino).table)
    (stepped : state.release handle = some next) : next.Sound := by
  unfold StagingRun.release at stepped
  split at stepped
  · cases stepped
    have fewer : { state with
        handles := state.handles.erase handle }.Sound :=
      sound.sameFiles rfl rfl (fun _ _ => rfl) rfl
    apply (sameDir_lastRelease _ handle.ino).sound fewer
    rw [table_lastRelease]
    exact accurate
  · cases stepped

theorem Sound.gcOne {state next : StagingRun} (sound : state.Sound)
    {ino : Ino} {works : Bool} (accurate : works → state.Settled ino)
    (stepped : state.gcOne ino works = some next) : next.Sound := by
  unfold StagingRun.gcOne at stepped
  split at stepped
  · split at stepped
    · cases stepped
      exact sound.tryRemove accurate rfl rfl rfl rfl
    · cases stepped
      exact sound.sameFiles rfl rfl (fun _ _ => rfl) rfl
  · cases stepped

/-! ## Runs -/

theorem sound_of_step {state next : StagingRun} {event : StagingEvent}
    (sound : state.Sound) (careful : state.Careful event)
    (stepped : state.step event = some next) : next.Sound := by
  obtain ⟨accurate, lengths⟩ := careful
  have fits := lengths next stepped
  cases event with
  | create parent name mode uid gid now outcome =>
      cases stepped
      unfold Accurate at accurate
      unfold StagingRun.create
      cases made : state.createInode parent name mode uid gid now with
      | none => exact sound
      | some created =>
          simp only [made] at accurate
          exact sound.createFile created.1 created.2 outcome accurate.1
            accurate.2
  | openEnter ino hash size truncate => exact sound.openEnter stepped
  | openFill ino outcome => exact sound.openFill accurate stepped fits
  | openDone ino now => exact sound.openDone accurate stepped
  | setattrEnter ino newSize => exact sound.setattrEnter stepped
  | setattrApply ino outcome now =>
      exact sound.setattrApply accurate stepped fits
  | encryptedEnter ino call => exact sound.encryptedEnter stepped
  | encryptedFill ino outcome =>
      exact sound.encryptedFill accurate stepped fits
  | encryptedDone ino outcome now =>
      exact sound.encryptedDone accurate stepped fits
  | pwrite handle offset written => exact sound.pwrite accurate stepped fits
  | encryptedRead ino => exact sound.encryptedRead stepped
  | encryptedWrite ino oldPlaintext newPlaintext length =>
      exact sound.encryptedWrite accurate stepped fits
  | encryptedWriteFails ino oldPlaintext length =>
      exact sound.encryptedWriteFails accurate stepped
  | writeDone write =>
      obtain ⟨listed, popped⟩ := popped_of_writeDone stepped
      exact popped.sound sound listed
  | unlink info now =>
      cases stepped
      exact sound.sameFiles rfl rfl accurate rfl
  | rename info request now =>
      cases stepped
      exact (sameDir_rename state info request now).sound sound accurate
  | dropLocked ino works =>
      simp only [step, dropLocked, Option.ite_none_right_eq_some] at stepped
      obtain ⟨_, stepped⟩ := stepped
      cases stepped
      exact sound.tryRemove accurate rfl rfl rfl rfl
  | release handle => exact sound.release accurate stepped
  | releaseReader ino =>
      cases stepped
      exact (sameDir_lastRelease state ino).sound sound accurate
  | forget ino count =>
      cases stepped
      exact (sameDir_forget state ino count).sound sound accurate
  | sweep inos =>
      cases stepped
      exact sound.sameFiles rfl rfl accurate rfl
  | dropStaging ino works =>
      simp only [step, dropStaging, Option.ite_none_right_eq_some] at stepped
      obtain ⟨_, stepped⟩ := stepped
      cases stepped
      exact sound.tryRemove accurate rfl rfl rfl rfl
  | gcChoose ino =>
      cases stepped
      apply (sameDir_gcChoose state ino).sound sound
      rw [table_gcChoose]
      exact fun _ _ => rfl
  | gcOne ino works => exact sound.gcOne accurate stepped
  | other table =>
      cases stepped
      exact sound.sameFiles rfl rfl accurate rfl

/-- A new staging directory, and no write in progress. -/
structure Initial (state : StagingRun) : Prop where
  empty : state.dir.files = ∅
  unused : state.dir.bytesUsed = 0
  idle : state.writes = []

theorem settled_of_idle {state : StagingRun} (idle : state.writes = [])
    (ino : Ino) : state.Settled ino := by
  simp [Settled, charges, writesTo, idle]

theorem Initial.sound {state : StagingRun} (initial : state.Initial) :
    state.Sound := by
  refine ⟨?_, fun ino => (settled_of_idle initial.idle ino).level, ?_, ?_⟩
  · rw [initial.unused, accountedTotal, initial.empty]
    rfl
  · simp [initial.idle]
  · rw [totalLength, initial.empty]
    exact Nat.zero_le _

/-- Without a write in progress the counter holds the lengths. -/
theorem Sound.balanced {state : StagingRun} (sound : state.Sound)
    (idle : state.writes = []) : state.dir.Balanced := by
  unfold StagingDir.Balanced
  rw [sound.counted]
  apply Budget.total_congr
  intro ino
  rw [(sound.level ino).weightAt, weightAt_length,
    (settled_of_idle idle ino).accounted]

theorem sound_of_run {state final : StagingRun} {events : List StagingEvent}
    (sound : state.Sound) (careful : AllSteps step Careful state events)
    (run : exec step state events = some final) : final.Sound :=
  exec_invariant (fun _ _ _ => sound_of_step) sound careful run

/-- In a run of careful steps the counter holds the sum of the lengths of the
staging files whenever no write is between its file and the counter. -/
theorem balanced_of_careful {state final : StagingRun}
    {events : List StagingEvent} (initial : state.Initial)
    (careful : AllSteps step Careful state events)
    (run : exec step state events = some final)
    (idle : final.writes = []) : final.dir.Balanced :=
  (sound_of_run initial.sound careful run).balanced idle

/-! ## A plain file that is created and written -/

/-- A new mount. -/
def mounted (mode : StagingMode) : StagingRun :=
  { mode
    table := InodeTable.new
    dir := StagingDir.new 0
    handles := []
    held := fun _ => none
    dropping := []
    evicted := []
    collecting := []
    reads := []
    writes := [] }

theorem initial_mounted (mode : StagingMode) : (mounted mode).Initial := by
  constructor
  · rfl
  · rfl
  · rfl

def createdFile (length : Nat) : StagingEvent :=
  .create rootInode "a".toList 420 0 0 0 (.placed false length)

/-- Five bytes, by two writes that overlap. -/
def createdAndWritten : List StagingEvent :=
  [createdFile 0,
    .pwrite ⟨2, some 0⟩ 0 3,
    .pwrite ⟨2, some 0⟩ 2 3,
    .writeDone (.plain 2 3),
    .writeDone (.plain 2 5),
    .release ⟨2, some 0⟩]

theorem balanced_of_careful_createdAndWritten :
    ∃ final, exec step (mounted .plaintext) createdAndWritten = some final ∧
      final.dir.bytesUsed = 5 ∧ final.dir.Balanced := by
  have careful : AllSteps step Careful (mounted .plaintext)
      createdAndWritten := by decide
  obtain ⟨final, run, used, idle⟩ : ∃ final,
      exec step (mounted .plaintext) createdAndWritten = some final ∧
        final.dir.bytesUsed = 5 ∧ final.writes = [] :=
    ⟨_, rfl, by decide, by decide⟩
  exact ⟨final, run, used,
    balanced_of_careful (initial_mounted .plaintext) careful run idle⟩

/-! ## An encrypted file that is created -/

/-- No operation is in progress. -/
structure Idle (state : StagingRun) : Prop where
  held : ∀ ino, state.held ino = none
  dropping : state.dropping = []
  evicted : state.evicted = []
  collecting : state.collecting = []
  reads : state.reads = []
  writes : state.writes = []

theorem not_balanced :
    ¬ ∀ (state final : StagingRun) (events : List StagingEvent),
      state.Initial → exec step state events = some final → final.Idle →
        final.dir.Balanced := by
  intro always
  obtain ⟨final, run, unbalanced, idle⟩ : ∃ final,
      exec step (mounted .encrypted) [createdFile 70] = some final ∧
        ¬ final.dir.Balanced ∧ final.Idle :=
    ⟨_, rfl, by decide, ⟨fun _ => rfl, rfl, rfl, rfl, rfl, rfl⟩⟩
  exact unbalanced
    (always _ final _ (initial_mounted .encrypted) run idle)

end StagingRun

end HfMount.Vfs
