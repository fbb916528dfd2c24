import HfMount.Vfs.StagingBudget

/-!
# What the counter of the staging directory holds

The counter holds the sum of the lengths of the staging files when what each
step tells it is what that step does to the files.  A write tells it later: in
between the counter still holds the size from which the write starts, and the
file already has the length to which the last of the writes on it leads.
-/

namespace HfMount.Vfs

open SlashPath Inode Flush Encryption Transition

namespace StagingDir

theorem weightAt_length (dir : StagingDir) (ino : Ino) :
    Budget.weightAt (fun _ file => file.length) dir.files ino =
      dir.fileSize ino := rfl

theorem fileSize_place (dir : StagingDir) (ino other : Ino) (replaced : Bool)
    (length : Nat) :
    (dir.place ino replaced length).fileSize other =
      if other = ino then length else dir.fileSize other := by
  unfold place
  split
  · by_cases same : other = ino
    · subst same
      simp [fileSize]
    · simp [fileSize, same, AList.lookup_insert_ne same]
  · by_cases same : other = ino
    · subst same
      simp [fileSize]
    · simp [fileSize, same, AList.lookup_insert_ne same]

@[simp] theorem bytesUsed_place (dir : StagingDir) (ino : Ino)
    (replaced : Bool) (length : Nat) :
    (dir.place ino replaced length).bytesUsed = dir.bytesUsed := by
  unfold place
  split <;> rfl

theorem fileSize_erase (dir : StagingDir) (ino other : Ino) :
    { dir with files := dir.files.erase ino }.fileSize other =
      if other = ino then 0 else dir.fileSize other := by
  by_cases same : other = ino
  · subst same
    simp [fileSize]
  · simp [fileSize, same, AList.lookup_erase_ne same]

/-- The length that is left. -/
def leftLength (left : Leftover) : Nat := left.elim 0 (·.2)

theorem fileSize_leave (dir : StagingDir) (ino other : Ino) (left : Leftover) :
    (dir.leave ino left).fileSize other =
      if other = ino then leftLength left else dir.fileSize other := by
  cases left with
  | none => exact dir.fileSize_erase ino other
  | some kept => exact dir.fileSize_place ino other kept.1 kept.2

@[simp] theorem bytesUsed_leave (dir : StagingDir) (ino : Ino)
    (left : Leftover) : (dir.leave ino left).bytesUsed = dir.bytesUsed := by
  cases left with
  | none => rfl
  | some kept => exact dir.bytesUsed_place ino kept.1 kept.2

@[simp] theorem fileSize_resizeBytes (dir : StagingDir) (old new : Nat)
    (ino : Ino) : (dir.resizeBytes old new).fileSize ino = dir.fileSize ino :=
  rfl

@[simp] theorem bytesUsed_resizeBytes (dir : StagingDir) (old new : Nat) :
    (dir.resizeBytes old new).bytesUsed =
      Budget.resize u64Max dir.bytesUsed old new := rfl

/-- A removal that does not come about leaves the directory as it is. -/
theorem tryRemove_cases (dir : StagingDir) (ino : Ino) (works : Bool) :
    dir.tryRemove ino works = dir ∨
      works = true ∧
        (∀ other, (dir.tryRemove ino works).fileSize other =
          if other = ino then 0 else dir.fileSize other) ∧
        (dir.tryRemove ino works).bytesUsed =
          Budget.resize u64Max dir.bytesUsed (dir.fileSize ino) 0 := by
  unfold tryRemove
  split <;> rename_i removed
  · apply Or.inr
    simp only [Bool.and_eq_true] at removed
    refine ⟨removed.2, ?_, rfl⟩
    intro other
    exact dir.fileSize_erase ino other
  · exact Or.inl rfl

/-- A file that is put where one of its length was. -/
theorem fileSize_place_same {dir : StagingDir} {ino : Ino} {length : Nat}
    (same : length = dir.fileSize ino) (replaced : Bool) (other : Ino) :
    (dir.place ino replaced length).fileSize other = dir.fileSize other := by
  rw [fileSize_place]
  split <;> rename_i here
  · rw [here, same]
  · rfl

theorem fileSize_leave_same {dir : StagingDir} {ino : Ino} {left : Leftover}
    (same : leftLength left = dir.fileSize ino) (other : Ino) :
    (dir.leave ino left).fileSize other = dir.fileSize other := by
  rw [fileSize_leave]
  split <;> rename_i here
  · rw [here, same]
  · rfl

theorem totalLength_congr {dir next : StagingDir}
    (same : ∀ ino, next.fileSize ino = dir.fileSize ino) :
    next.totalLength = dir.totalLength :=
  Budget.total_congr same

end StagingDir

namespace StagingRun

open StagingDir

/-! ## What the writes in progress announce -/

def writesTo (state : StagingRun) (ino : Ino) : List LocalWrite :=
  state.writes.filter fun write => write.ino = ino

/-- What the writes in progress on an inode are going to announce. -/
def charges (state : StagingRun) (ino : Ino) : List (Nat × Nat) :=
  (state.writesTo ino).filterMap (·.charge state.table)

def Settled (state : StagingRun) (ino : Ino) : Prop := state.charges ino = []

/-- Nothing is announced either when the inode gets this size. -/
def SettledAt (state : StagingRun) (ino : Ino) (size : Nat) : Prop :=
  ∀ write ∈ state.writesTo ino, write.chargeAt size = none

/-- A change of the table leaves what the writes announce. -/
def KeepsCharges (state : StagingRun) (table : InodeTable) : Prop :=
  ∀ write ∈ state.writes, write.charge table = write.charge state.table

/-- What the counter holds for an inode. -/
def accounted (state : StagingRun) (ino : Ino) : Nat :=
  match state.charges ino with
  | [] => state.dir.fileSize ino
  | (old, _) :: _ => old

def accountedTotal (state : StagingRun) : Nat :=
  Budget.total (fun ino _ => state.accounted ino) state.dir.files

/-- The writes on an inode start from what the counter holds and lead to the
length of the file. -/
structure Level (state : StagingRun) (ino : Ino) : Prop where
  start : ∀ charge ∈ state.charges ino, charge.1 = state.accounted ino
  below : ∀ charge ∈ state.charges ino,
    charge.1 ≤ state.dir.fileSize ino ∧ charge.2 ≤ state.dir.fileSize ino
  reached : state.charges ino ≠ [] →
    0 < state.dir.fileSize ino ∧
      ∃ charge ∈ state.charges ino, charge.2 = state.dir.fileSize ino
  alone : state.mode = .encrypted → state.charges ino ≠ [] →
    (state.writesTo ino).length = 1

structure Sound (state : StagingRun) : Prop where
  counted : state.dir.bytesUsed = state.accountedTotal
  level : ∀ ino, state.Level ino
  kinds : ∀ write ∈ state.writes,
    write.isEncrypted = decide (state.mode = .encrypted)
  fits : state.dir.totalLength ≤ u64Max

theorem mem_writesTo {state : StagingRun} {ino : Ino} {write : LocalWrite} :
    write ∈ state.writesTo ino ↔ write ∈ state.writes ∧ write.ino = ino := by
  simp [writesTo]

theorem mem_charges {state : StagingRun} {ino : Ino} {charge : Nat × Nat} :
    charge ∈ state.charges ino ↔
      ∃ write ∈ state.writes, write.ino = ino ∧
        write.charge state.table = some charge := by
  simp only [charges, List.mem_filterMap, mem_writesTo, and_assoc]

theorem settled_iff {state : StagingRun} {ino : Ino} :
    state.Settled ino ↔ ∀ write ∈ state.writes, write.ino = ino →
      write.charge state.table = none := by
  simp only [Settled, charges, List.filterMap_eq_nil_iff, mem_writesTo,
    and_imp]

theorem Settled.accounted {state : StagingRun} {ino : Ino}
    (settled : state.Settled ino) :
    state.accounted ino = state.dir.fileSize ino := by
  unfold Settled at settled
  simp [StagingRun.accounted, settled]

theorem Settled.level {state : StagingRun} {ino : Ino}
    (settled : state.Settled ino) : state.Level ino := by
  unfold Settled at settled
  constructor
  · simp [settled]
  · simp [settled]
  · simp [settled]
  · simp [settled]

theorem Level.accounted_le {state : StagingRun} {ino : Ino}
    (level : state.Level ino) :
    state.accounted ino ≤ state.dir.fileSize ino := by
  cases pending : state.charges ino with
  | nil => exact (Settled.accounted pending).le
  | cons charge rest =>
      have listed : charge ∈ state.charges ino := by simp [pending]
      rw [← level.start charge listed]
      exact (level.below charge listed).1

/-- An inode without a staging file counts for nothing. -/
theorem Level.weightAt {state : StagingRun} {ino : Ino}
    (level : state.Level ino) :
    Budget.weightAt (fun other _ => state.accounted other) state.dir.files
      ino = state.accounted ino := by
  cases found : state.dir.files.lookup ino with
  | some file => exact Budget.weightAt_of_lookup found
  | none =>
      rw [Budget.weightAt_of_missing found]
      have empty : state.dir.fileSize ino = 0 := by
        simp [StagingDir.fileSize, found]
      have within := level.accounted_le
      omega

theorem accountedTotal_le {state : StagingRun}
    (level : ∀ ino, state.Level ino) :
    state.accountedTotal ≤ state.dir.totalLength := by
  apply Budget.total_mono
  intro ino
  rw [(level ino).weightAt, weightAt_length]
  exact (level ino).accounted_le

/-! ## Steps that concern one inode -/

/-- Nothing changes for the other inodes. -/
structure SameElsewhere (state next : StagingRun) (ino : Ino) : Prop where
  mode : next.mode = state.mode
  writesTo : ∀ other ≠ ino, next.writesTo other = state.writesTo other
  charges : ∀ other ≠ ino, next.charges other = state.charges other
  fileSize : ∀ other ≠ ino,
    next.dir.fileSize other = state.dir.fileSize other

theorem accounted_congr {state next : StagingRun} {ino : Ino}
    (charges : next.charges ino = state.charges ino)
    (fileSize : next.dir.fileSize ino = state.dir.fileSize ino) :
    next.accounted ino = state.accounted ino := by
  simp only [accounted, charges, fileSize]

theorem Level.transfer {state next : StagingRun} {ino : Ino}
    (level : state.Level ino)
    (charges : next.charges ino = state.charges ino)
    (fileSize : next.dir.fileSize ino = state.dir.fileSize ino)
    (alone : next.mode = .encrypted → state.charges ino ≠ [] →
      (next.writesTo ino).length = 1) : next.Level ino := by
  have same := accounted_congr charges fileSize
  constructor
  · rw [charges, same]
    exact level.start
  · rw [charges, fileSize]
    exact level.below
  · rw [charges, fileSize]
    exact level.reached
  · rw [charges]
    exact alone

theorem Level.congr {state next : StagingRun} {ino : Ino}
    (level : state.Level ino) (mode : next.mode = state.mode)
    (writesTo : next.writesTo ino = state.writesTo ino)
    (charges : next.charges ino = state.charges ino)
    (fileSize : next.dir.fileSize ino = state.dir.fileSize ino) :
    next.Level ino := by
  apply level.transfer charges fileSize
  rw [mode, writesTo]
  exact level.alone

theorem SameElsewhere.level {state next : StagingRun} {ino : Ino}
    (elsewhere : state.SameElsewhere next ino) (sound : state.Sound)
    (level : next.Level ino) : ∀ other, next.Level other := by
  intro other
  by_cases same : other = ino
  · rw [same]
    exact level
  · exact (sound.level other).congr elsewhere.mode
      (elsewhere.writesTo other same) (elsewhere.charges other same)
      (elsewhere.fileSize other same)

theorem SameElsewhere.weightAt {state next : StagingRun} {ino : Ino}
    (elsewhere : state.SameElsewhere next ino) (sound : state.Sound)
    (level : next.Level ino) {other : Ino} (distinct : other ≠ ino) :
    Budget.weightAt (fun key _ => next.accounted key) next.dir.files other =
      Budget.weightAt (fun key _ => state.accounted key) state.dir.files
        other := by
  rw [(elsewhere.level sound level other).weightAt,
    (sound.level other).weightAt]
  exact accounted_congr (elsewhere.charges other distinct)
    (elsewhere.fileSize other distinct)

/-- The counter is told of a change as it is. -/
theorem Sound.resized {state next : StagingRun} {ino : Ino}
    (sound : state.Sound) (elsewhere : state.SameElsewhere next ino)
    (level : next.Level ino)
    (bytes : next.dir.bytesUsed = Budget.resize u64Max state.dir.bytesUsed
      (state.accounted ino) (next.accounted ino))
    (kinds : ∀ write ∈ next.writes,
      write.isEncrypted = decide (next.mode = .encrypted))
    (fits : next.dir.totalLength ≤ u64Max) : next.Sound := by
  have levels := elsewhere.level sound level
  refine ⟨?_, levels, kinds, fits⟩
  rw [bytes, ← (sound.level ino).weightAt, ← level.weightAt]
  apply Budget.resize_eq_total sound.counted
  · intro other distinct
    exact elsewhere.weightAt sound level distinct
  · exact (accountedTotal_le levels).trans fits

/-- The counter is told of nothing, and holds the same. -/
theorem Sound.kept {state next : StagingRun} {ino : Ino}
    (sound : state.Sound) (elsewhere : state.SameElsewhere next ino)
    (level : next.Level ino)
    (same : next.accounted ino = state.accounted ino)
    (bytes : next.dir.bytesUsed = state.dir.bytesUsed)
    (kinds : ∀ write ∈ next.writes,
      write.isEncrypted = decide (next.mode = .encrypted))
    (fits : next.dir.totalLength ≤ u64Max) : next.Sound := by
  refine ⟨?_, elsewhere.level sound level, kinds, fits⟩
  rw [bytes, sound.counted]
  apply Eq.symm
  apply Budget.total_congr
  intro other
  by_cases here : other = ino
  · rw [here, level.weightAt, (sound.level ino).weightAt, same]
  · exact elsewhere.weightAt sound level here

/-! ## Steps that do not write -/

theorem charge_modify_of_ne (table : InodeTable) {ino : Ino}
    {write : LocalWrite} (distinct : write.ino ≠ ino)
    (change : InodeEntry → InodeEntry) :
    write.charge (table.modify ino change) = write.charge table := by
  simp only [LocalWrite.charge, table.get_modify_of_ne distinct change]

theorem charge_modify_self (table : InodeTable) (write : LocalWrite)
    (change : InodeEntry → InodeEntry) :
    write.charge (table.modify write.ino change) =
      (table.get write.ino).bind fun entry =>
        write.chargeAt (change entry).size := by
  simp only [LocalWrite.charge, InodeTable.get_modify, if_true]
  cases table.get write.ino with
  | none => simp
  | some entry => simp

/-- A change that keeps the size. -/
theorem KeepsCharges.modify (state : StagingRun) (ino : Ino)
    {change : InodeEntry → InodeEntry}
    (sizes : ∀ entry, (change entry).size = entry.size) :
    state.KeepsCharges (state.table.modify ino change) := by
  intro write _
  by_cases here : write.ino = ino
  · subst here
    rw [charge_modify_self]
    simp only [sizes]
    rfl
  · exact charge_modify_of_ne state.table here change

theorem writesTo_congr {state next : StagingRun}
    (writes : next.writes = state.writes) (ino : Ino) :
    next.writesTo ino = state.writesTo ino := by
  simp only [writesTo, writes]

theorem charges_congr {state next : StagingRun} {ino : Ino}
    (writesTo : next.writesTo ino = state.writesTo ino)
    (same : ∀ write ∈ state.writes, write.ino = ino →
      write.charge next.table = write.charge state.table) :
    next.charges ino = state.charges ino := by
  unfold charges
  rw [writesTo]
  apply List.filterMap_congr
  intro write listed
  obtain ⟨present, here⟩ := mem_writesTo.mp listed
  exact same write present here

/-- The lengths of the files and what the writes announce stay. -/
theorem Sound.sameLengths {state next : StagingRun} (sound : state.Sound)
    (mode : next.mode = state.mode) (writes : next.writes = state.writes)
    (keeps : state.KeepsCharges next.table)
    (sizes : ∀ ino, next.dir.fileSize ino = state.dir.fileSize ino)
    (bytes : next.dir.bytesUsed = state.dir.bytesUsed) : next.Sound := by
  have charges : ∀ ino, next.charges ino = state.charges ino := by
    intro ino
    apply charges_congr (writesTo_congr writes ino)
    intro write listed _
    exact keeps write listed
  have level : ∀ ino, next.Level ino := by
    intro ino
    exact (sound.level ino).congr mode (writesTo_congr writes ino)
      (charges ino) (sizes ino)
  refine ⟨?_, level, ?_, ?_⟩
  · rw [bytes, sound.counted]
    apply Eq.symm
    apply Budget.total_congr
    intro ino
    rw [(level ino).weightAt, (sound.level ino).weightAt]
    exact accounted_congr (charges ino) (sizes ino)
  · rw [writes, mode]
    exact sound.kinds
  · rw [totalLength_congr sizes]
    exact sound.fits

/-- Only the table changes. -/
theorem Sound.sameFiles {state next : StagingRun} (sound : state.Sound)
    (mode : next.mode = state.mode) (writes : next.writes = state.writes)
    (keeps : state.KeepsCharges next.table) (dir : next.dir = state.dir) :
    next.Sound := by
  apply sound.sameLengths mode writes keeps
  · intro ino
    rw [dir]
  · rw [dir]

/-- The counter is told the length before and the length after, and no write
on the inode is going to announce anything. -/
theorem Sound.resizedSettled {state next : StagingRun} {ino : Ino}
    (sound : state.Sound) (mode : next.mode = state.mode)
    (writes : next.writes = state.writes)
    (others : ∀ write ∈ state.writes, write.ino ≠ ino →
      write.charge next.table = write.charge state.table)
    (before : state.Settled ino) (after : next.Settled ino)
    (sizes : ∀ other ≠ ino,
      next.dir.fileSize other = state.dir.fileSize other)
    (bytes : next.dir.bytesUsed = Budget.resize u64Max state.dir.bytesUsed
      (state.dir.fileSize ino) (next.dir.fileSize ino))
    (fits : next.dir.totalLength ≤ u64Max) : next.Sound := by
  have elsewhere : state.SameElsewhere next ino := by
    refine ⟨mode, fun other _ => writesTo_congr writes other, ?_, sizes⟩
    intro other distinct
    apply charges_congr (writesTo_congr writes other)
    intro write listed here
    exact others write listed (here ▸ distinct)
  apply sound.resized elsewhere after.level
  · rw [bytes, before.accounted, after.accounted]
  · rw [writes, mode]
    exact sound.kinds
  · exact fits

/-- An inode is settled again when it has got a size that nothing exceeds. -/
theorem SettledAt.settled {state next : StagingRun} {ino : Ino} {size : Nat}
    (quiet : state.SettledAt ino size) (writes : next.writes = state.writes)
    (sized : ∀ entry, next.table.get ino = some entry → entry.size = size) :
    next.Settled ino := by
  rw [settled_iff, writes]
  intro write listed here
  subst here
  have silent := quiet write (mem_writesTo.mpr ⟨listed, rfl⟩)
  unfold LocalWrite.charge
  cases found : next.table.get write.ino with
  | none => rfl
  | some entry =>
      rw [Option.bind_some, sized entry found]
      exact silent

theorem Settled.congr {state next : StagingRun} {ino : Ino}
    (settled : state.Settled ino) (writes : next.writes = state.writes)
    (keeps : state.KeepsCharges next.table) : next.Settled ino := by
  rw [settled_iff] at settled ⊢
  rw [writes]
  intro write listed here
  rw [keeps write listed]
  exact settled write listed here

/-! ## The condition on a step -/

/-- What the outcome of an operation on a fresh file leaves. -/
def outcomeLength (fresh : Nat) : StagingOutcome → Nat
  | .placed _ _ => fresh
  | .failed left => leftLength left

/-- The write ends within the size of the inode and does not change the file,
or the file ends where the inode does, or earlier writes have taken it further
already. -/
def PwriteAccurate (state : StagingRun) (handle : WriteHandle)
    (offset written : Nat) : Prop :=
  let before := state.dir.fileSize handle.ino
  let after := state.lengthAfter handle offset written
  match state.table.get handle.ino with
  | none => after = before
  | some entry =>
      (offset + written ≤ entry.size ∧ after = before) ∨
        (¬ state.Settled handle.ino ∨ entry.size = before) ∧
          offset + written ≤ after

/-- The write leaves the size and the container, or no other write is under
way, the size that it has read is that of the container, and so is the size
that it is going to record. -/
def EncryptedWriteAccurate (state : StagingRun) (ino : Ino)
    (oldPlaintext newPlaintext length : Nat) : Prop :=
  let before := state.dir.fileSize ino
  match state.table.get ino with
  | none => length = before
  | some entry =>
      (newPlaintext = entry.size ∧ length = before ∧ state.Settled ino) ∨
        newPlaintext ≠ entry.size ∧ state.writesTo ino = [] ∧
          Content.ciphertextSize oldPlaintext = some before ∧
          Content.ciphertextSize newPlaintext = some length ∧ before ≤ length

/-- What the step tells the counter is what it does to the files. -/
def Accurate (state : StagingRun) : StagingEvent → Prop
  | .create parent name mode uid gid now outcome =>
      match state.createInode parent name mode uid gid now with
      | none => True
      | some (ino, table) =>
          state.KeepsCharges (state.createFile ino table outcome).table ∧
            (state.mode = .overlay ∨
              outcomeLength state.freshLength outcome = state.dir.fileSize ino)
  | .openFill ino outcome =>
      match state.held ino, outcome with
      | some (.preparing hash size truncate old), .placed _ length =>
          old = state.dir.fileSize ino ∧ state.Settled ino ∧
            (needsDownload hash size truncate → length = size)
      | some (.preparing _ _ _ _), .failed left =>
          leftLength left = state.dir.fileSize ino
      | _, _ => True
  | .openDone ino now =>
      match state.held ino with
      | some (.prepared truncate) =>
          state.KeepsCharges (state.table.modify ino fun entry =>
            StagedFile.openedEntry entry truncate now)
      | _ => True
  | .setattrApply ino outcome now =>
      match state.held ino, outcome with
      | some (.truncating newSize old), .placed _ _ =>
          if state.mode = .overlay then
            state.KeepsCharges (state.table.modify ino fun entry =>
              StagedFile.truncatedEntry entry newSize now)
          else
            old = state.dir.fileSize ino ∧ state.Settled ino ∧
              state.SettledAt ino newSize
      | some (.truncating _ _), .failed left =>
          state.mode = .overlay ∨ leftLength left = state.dir.fileSize ino
      | _, _ => True
  | .encryptedFill ino outcome =>
      match state.held ino, outcome with
      | some (.ensuring _ _ old), .placed _ _ =>
          old = state.dir.fileSize ino ∧ state.Settled ino
      | some (.ensuring _ _ _), .failed left =>
          leftLength left = state.dir.fileSize ino
      | _, _ => True
  | .encryptedDone ino outcome now =>
      match state.held ino, outcome with
      | some (.ensured (.opening truncate)), _ =>
          state.KeepsCharges (state.table.modify ino fun entry =>
            encryptedEntry entry (.opening truncate) now)
      | some (.ensured (.truncating newSize)), .placed _ _ =>
          state.Settled ino ∧ state.SettledAt ino newSize
      | some (.ensured (.truncating _)), .failed left =>
          leftLength left = state.dir.fileSize ino
      | _, _ => True
  | .pwrite handle offset written =>
      state.PwriteAccurate handle offset written
  | .encryptedWrite ino oldPlaintext newPlaintext length =>
      state.EncryptedWriteAccurate ino oldPlaintext newPlaintext length
  | .encryptedWriteFails ino _ length =>
      state.dir.localExists ino → length = state.dir.fileSize ino
  | .unlink info now => state.KeepsCharges (state.unlink info now).table
  | .rename info request now =>
      state.KeepsCharges (state.rename info request now).table
  | .release handle =>
      state.KeepsCharges (state.lastRelease handle.ino).table
  | .releaseReader ino => state.KeepsCharges (state.lastRelease ino).table
  | .forget ino count => state.KeepsCharges (state.forget ino count).table
  | .sweep inos => state.KeepsCharges (state.sweep inos).table
  | .dropLocked ino works | .dropStaging ino works | .gcOne ino works =>
      works → state.Settled ino
  | .other table => state.KeepsCharges table
  | .openEnter _ _ _ _ | .setattrEnter _ _ | .encryptedEnter _ _
  | .encryptedRead _ | .writeDone _ | .gcChoose _ => True

instance (state : StagingRun) (ino : Ino) : Decidable (state.Settled ino) :=
  inferInstanceAs (Decidable (_ = _))

instance (state : StagingRun) (ino : Ino) (size : Nat) :
    Decidable (state.SettledAt ino size) :=
  inferInstanceAs (Decidable (∀ write ∈ state.writesTo ino, _ = _))

instance (state : StagingRun) (table : InodeTable) :
    Decidable (state.KeepsCharges table) :=
  inferInstanceAs (Decidable (∀ write ∈ state.writes, _ = _))

instance (state : StagingRun) (handle : WriteHandle) (offset written : Nat) :
    Decidable (state.PwriteAccurate handle offset written) := by
  unfold PwriteAccurate
  dsimp only
  split <;> infer_instance

instance (state : StagingRun) (ino : Ino)
    (oldPlaintext newPlaintext length : Nat) :
    Decidable (state.EncryptedWriteAccurate ino oldPlaintext newPlaintext
      length) := by
  unfold EncryptedWriteAccurate
  dsimp only
  split <;> infer_instance

instance (state : StagingRun) (event : StagingEvent) :
    Decidable (state.Accurate event) := by
  unfold Accurate
  split
  case h_1 => split <;> infer_instance
  case h_2 => split <;> infer_instance
  case h_3 => split <;> infer_instance
  case h_4 => split <;> infer_instance
  case h_5 => split <;> infer_instance
  case h_6 => split <;> infer_instance
  all_goals infer_instance

/-- The step is accurate, and the lengths of the files that it leaves add up
to a 64-bit number. -/
def Careful (state : StagingRun) (event : StagingEvent) : Prop :=
  state.Accurate event ∧
    ∀ next ∈ state.step event, next.dir.totalLength ≤ u64Max

instance (state : StagingRun) (event : StagingEvent) :
    Decidable (state.Careful event) :=
  inferInstanceAs (Decidable (_ ∧ ∀ next ∈ state.step event, _))

end StagingRun

end HfMount.Vfs
