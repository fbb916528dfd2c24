import HfMount.Vfs.BudgetCharges

/-!
# Creates, opens and truncations in the budget

An open or a truncation measures the staging file before its work and tells the
counter of the change after it, while it holds the lock of the inode.  A write
does not wait for that lock, so no write on the inode may be about to announce
anything.
-/

namespace HfMount.Vfs

open SlashPath Inode Flush Encryption Transition

namespace StagingRun

open StagingDir

theorem Sound.createFile {state : StagingRun} (sound : state.Sound)
    (ino : Ino) (table : InodeTable) (outcome : StagingOutcome)
    (keeps : state.KeepsCharges (state.createFile ino table outcome).table)
    (lengths : state.mode = .overlay ∨
      outcomeLength state.freshLength outcome = state.dir.fileSize ino) :
    (state.createFile ino table outcome).Sound := by
  apply sound.sameLengths _ _ keeps
  · intro other
    unfold StagingRun.createFile
    split <;> rename_i mode
    · rfl
    · rfl
    · have length := lengths.resolve_left (by simp [mode])
      exact fileSize_place_same length false other
    · have length := lengths.resolve_left (by simp [mode])
      exact fileSize_leave_same length other
    · have length := lengths.resolve_left (by simp [mode])
      exact fileSize_place_same length false other
    · have length := lengths.resolve_left (by simp [mode])
      exact fileSize_leave_same length other
  · unfold StagingRun.createFile
    split <;> simp
  · unfold StagingRun.createFile
    split <;> rfl
  · unfold StagingRun.createFile
    split <;> rfl

theorem Sound.openEnter {state next : StagingRun} (sound : state.Sound)
    {ino : Ino} {hash : Hash} {size : Nat} {truncate : Bool}
    (stepped : state.openEnter ino hash size truncate = some next) :
    next.Sound := by
  unfold StagingRun.openEnter at stepped
  split at stepped
  · cases stepped
  · split at stepped
    · cases stepped
      exact sound
    · split at stepped
      · cases stepped
        exact sound.sameFiles rfl rfl (fun _ _ => rfl) rfl
      · cases stepped
        have keeps : state.KeepsCharges (state.table.modify ino fun entry =>
            { entry with stagingIsCurrent := false }) :=
          KeepsCharges.modify state ino fun _ => rfl
        exact sound.sameFiles rfl rfl keeps rfl

theorem size_markedEntry (entry : InodeEntry) (hash : Hash) (size : Nat)
    (truncate : Bool) :
    (StagedFile.markedEntry entry hash size truncate).size = entry.size := by
  unfold StagedFile.markedEntry
  dsimp only
  split <;> rfl

theorem Sound.openFill {state next : StagingRun} (sound : state.Sound)
    {ino : Ino} {outcome : StagingOutcome}
    (accurate : state.Accurate (.openFill ino outcome))
    (stepped : state.openFill ino outcome = some next)
    (fits : next.dir.totalLength ≤ u64Max) : next.Sound := by
  unfold StagingRun.openFill at stepped
  unfold Accurate at accurate
  split at stepped
  · rename_i hash size truncate old replaced length held
    simp only [held] at accurate
    obtain ⟨measured, settled, downloaded⟩ := accurate
    subst measured
    cases stepped
    have keeps := KeepsCharges.modify state ino
      fun entry => size_markedEntry entry hash size truncate
    refine sound.resizedSettled rfl rfl ?_ settled
      (settled.congr rfl keeps) ?_ ?_ fits
    · intro write listed _
      exact keeps write listed
    · intro other distinct
      dsimp only [setTask]
      split <;> simp [fileSize_place, distinct]
    · dsimp only [setTask]
      split <;> rename_i needed
      · simp [fileSize_place, downloaded needed]
      · simp [fileSize_place]
  · rename_i held
    simp only [held] at accurate
    cases stepped
    refine sound.sameLengths rfl rfl (fun _ _ => rfl)
      (fileSize_leave_same accurate) ?_
    simp [setTask]
  · cases stepped

theorem Sound.openDone {state next : StagingRun} (sound : state.Sound)
    {ino : Ino} {now : Time} (accurate : state.Accurate (.openDone ino now))
    (stepped : state.openDone ino now = some next) : next.Sound := by
  unfold StagingRun.openDone at stepped
  unfold Accurate at accurate
  split at stepped <;> rename_i held
  · simp only [held] at accurate
    split at stepped
    · cases stepped
      exact sound.sameFiles rfl rfl accurate rfl
    · cases stepped
      exact sound.sameFiles rfl rfl (fun _ _ => rfl) rfl
  · cases stepped

theorem Sound.setattrEnter {state next : StagingRun} (sound : state.Sound)
    {ino : Ino} {newSize : Nat}
    (stepped : state.setattrEnter ino newSize = some next) : next.Sound := by
  unfold StagingRun.setattrEnter at stepped
  split at stepped
  · cases stepped
  · cases stepped
    exact sound.sameFiles rfl rfl (fun _ _ => rfl) rfl

/-- The inode gets a new size, which nothing exceeds, and its file a new
length. -/
theorem Sound.resizedBoth {state next : StagingRun} (sound : state.Sound)
    {ino : Ino} {length newSize : Nat} {change : InodeEntry → InodeEntry}
    (settled : state.Settled ino) (quiet : state.SettledAt ino newSize)
    (sized : ∀ entry, (change entry).size = newSize)
    (mode : next.mode = state.mode) (writes : next.writes = state.writes)
    (table : next.table = state.table.modify ino change)
    (dir : next.dir = (state.dir.place ino false length).resizeBytes
      (state.dir.fileSize ino) length)
    (fits : next.dir.totalLength ≤ u64Max) : next.Sound := by
  apply sound.resizedSettled mode writes _ settled _ _ _ fits
  · intro write _ distinct
    rw [table]
    exact charge_modify_of_ne state.table distinct change
  · apply quiet.settled writes
    intro entry found
    rw [table, InodeTable.get_modify, if_pos rfl] at found
    obtain ⟨old, _, rfl⟩ := Option.map_eq_some_iff.mp found
    exact sized old
  · intro other distinct
    rw [dir]
    simp [fileSize_place, distinct]
  · rw [dir]
    simp [fileSize_place]

theorem Sound.setattrApply {state next : StagingRun} (sound : state.Sound)
    {ino : Ino} {outcome : StagingOutcome} {now : Time}
    (accurate : state.Accurate (.setattrApply ino outcome now))
    (stepped : state.setattrApply ino outcome now = some next)
    (fits : next.dir.totalLength ≤ u64Max) : next.Sound := by
  unfold StagingRun.setattrApply at stepped
  unfold Accurate at accurate
  split at stepped <;> rename_i held
  · simp only [held] at accurate
    by_cases overlay : state.mode = .overlay
    · rw [if_pos overlay] at accurate stepped
      cases stepped
      exact sound.sameFiles rfl rfl accurate rfl
    · rw [if_neg overlay] at accurate stepped
      obtain ⟨measured, settled, quiet⟩ := accurate
      subst measured
      cases stepped
      exact sound.resizedBoth settled quiet (fun _ => rfl) rfl rfl rfl rfl
        fits
  · simp only [held] at accurate
    by_cases overlay : state.mode = .overlay
    · rw [if_pos overlay] at stepped
      cases stepped
      exact sound.sameFiles rfl rfl (fun _ _ => rfl) rfl
    · rw [if_neg overlay] at stepped
      cases stepped
      refine sound.sameLengths rfl rfl (fun _ _ => rfl)
        (fileSize_leave_same (accurate.resolve_left overlay)) ?_
      simp [setTask]
  · cases stepped

theorem Sound.encryptedEnter {state next : StagingRun} (sound : state.Sound)
    {ino : Ino} {call : EncryptedCall}
    (stepped : state.encryptedEnter ino call = some next) : next.Sound := by
  unfold StagingRun.encryptedEnter at stepped
  split at stepped
  · cases stepped
  · split at stepped
    · cases stepped
      exact sound
    · split at stepped
      · cases stepped
        exact sound.sameFiles rfl rfl (fun _ _ => rfl) rfl
      · cases stepped
        exact sound.sameFiles rfl rfl (fun _ _ => rfl) rfl

theorem Sound.encryptedFill {state next : StagingRun} (sound : state.Sound)
    {ino : Ino} {outcome : StagingOutcome}
    (accurate : state.Accurate (.encryptedFill ino outcome))
    (stepped : state.encryptedFill ino outcome = some next)
    (fits : next.dir.totalLength ≤ u64Max) : next.Sound := by
  unfold StagingRun.encryptedFill at stepped
  unfold Accurate at accurate
  split at stepped <;> rename_i held
  · simp only [held] at accurate
    obtain ⟨measured, settled⟩ := accurate
    subst measured
    split at stepped
    · cases stepped
      have keeps : state.KeepsCharges (state.table.modify ino fun entry =>
          { entry with stagingIsCurrent := true }) :=
        KeepsCharges.modify state ino fun _ => rfl
      refine sound.resizedSettled rfl rfl ?_ settled
        (settled.congr rfl keeps) ?_ ?_ fits
      · intro write listed _
        exact keeps write listed
      · intro other distinct
        simp [setTask, fileSize_place, distinct]
      · simp [setTask, fileSize_place]
    · cases stepped
      refine sound.resizedSettled rfl rfl (fun _ _ _ => rfl) settled
        (settled.congr rfl fun _ _ => rfl) ?_ ?_ fits
      · intro other distinct
        simp [setTask, fileSize_place, distinct]
      · simp [setTask, fileSize_place]
  · simp only [held] at accurate
    cases stepped
    refine sound.sameLengths rfl rfl (fun _ _ => rfl)
      (fileSize_leave_same accurate) ?_
    simp [setTask]
  · cases stepped

theorem Sound.encryptedDone {state next : StagingRun} (sound : state.Sound)
    {ino : Ino} {outcome : StagingOutcome} {now : Time}
    (accurate : state.Accurate (.encryptedDone ino outcome now))
    (stepped : state.encryptedDone ino outcome now = some next)
    (fits : next.dir.totalLength ≤ u64Max) : next.Sound := by
  unfold StagingRun.encryptedDone at stepped
  unfold Accurate at accurate
  split at stepped <;> rename_i held
  · simp only [held] at accurate
    split at stepped
    · cases stepped
      exact sound.sameFiles rfl rfl accurate rfl
    · cases stepped
      exact sound.sameFiles rfl rfl (fun _ _ => rfl) rfl
  · simp only [held] at accurate
    split at stepped
    · cases stepped
      exact sound.resizedBoth accurate.1 accurate.2 (fun _ => rfl) rfl rfl rfl
        rfl fits
    · cases stepped
  · simp only [held] at accurate
    cases stepped
    refine sound.sameLengths rfl rfl (fun _ _ => rfl)
      (fileSize_leave_same accurate) ?_
    simp [setTask]
  · cases stepped

end StagingRun

end HfMount.Vfs
