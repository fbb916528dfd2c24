import HfMount.Flush.StagedFile

/-!
# What a step does to a staged file

Every step does one of four things to the staging file: it leaves the
generation, the staging file and the flush alone; it changes the staging file
and stays unsettled; it settles an operation and marks the inode dirty; or it
moves the flush on.  `step_effect` says this once, and `Tracked` is what
follows for a running flush.
-/

namespace HfMount.Flush

open Inode

namespace StagedFile

/-- Some operation has changed the staging file and not yet marked the inode
dirty. -/
def Unsettled (file : StagedFile) : Prop :=
  ∃ id op, file.op id = some op ∧ op.changed = true

/-- The uploaded content is still what is staged. -/
def Holds (file : StagedFile) (content : Bytes) : Prop :=
  ∀ staged, file.staging = some staged → file.disk staged = content

/-- The snapshot of the running flush is overtaken: a write has moved the
generation past it or is about to. -/
def Overtaken (file : StagedFile) (item : FlushItem) : Prop :=
  item.dirtyGeneration < file.entry.dirtyGeneration ∨ file.Unsettled

/-- The dirty generation is not stuck at its maximum while a flush holds a
snapshot of it. -/
def GenerationMoves (file : StagedFile) : FileEvent → Prop
  | .openDone _ _ | .setattrApply _ _ | .writeDone _ =>
      ∀ item, file.flush.item = some item →
        item.dirtyGeneration < u64Max
  | _ => True

instance (file : StagedFile) (event : FileEvent) :
    Decidable (file.GenerationMoves event) := by
  cases event <;> unfold GenerationMoves <;> infer_instance

@[simp] theorem disturb_item (phase : FlushPhase) :
    phase.disturb.item = phase.item := by
  cases phase <;> rfl

@[simp] theorem disturb_content (phase : FlushPhase) :
    phase.disturb.content = phase.content := by
  cases phase <;> rfl

theorem disturb_eq_committed {phase : FlushPhase} {item : FlushItem}
    {content : Bytes} (committed : phase.disturb = .committed item content) :
    phase = .committed item content := by
  cases phase <;> simp_all [FlushPhase.disturb]

/-- The flush of `after` is that of `before`, disturbed or not. -/
def SameFlush (before after : StagedFile) : Prop :=
  (after.flush = before.flush ∨ after.flush = before.flush.disturb) ∧
    after.remote = before.remote

theorem SameFlush.item {before after : StagedFile}
    (same : before.SameFlush after) :
    after.flush.item = before.flush.item := by
  rcases same.1 with flush | flush
  · rw [flush]
  · rw [flush, disturb_item]

/-- The generation, the staging file and the flush are left alone, and what
was unsettled stays so. -/
structure SameStaging (before after : StagedFile) : Prop where
  flush : after.flush = before.flush
  generation : after.entry.dirtyGeneration = before.entry.dirtyGeneration
  staging : after.staging = before.staging
  disk : ∀ staged, before.staging = some staged →
    after.disk staged = before.disk staged
  unsettled : before.Unsettled → after.Unsettled

/-- So are the hash, what the Hub holds, and the cache flag unless it is
cleared. -/
structure Unaffected (before after : StagedFile) : Prop
    extends SameStaging before after where
  remote : after.remote = before.remote
  hash : after.entry.xetHash = before.entry.xetHash
  current : after.entry.stagingIsCurrent = true →
    before.entry.stagingIsCurrent = true

/-- The flush ends with `applyCommit` of what it has uploaded. -/
def applied (file : StagedFile) (store : ContentStore) (item : FlushItem)
    (content : Bytes) (now : Time) : StagedFile :=
  { file with
    flush := .idle
    entry := file.entry.applyCommit (store.hash content) content.length
      item.dirtyGeneration now }

inductive Effect (store : ContentStore) (before : StagedFile) :
    StagedFile → Prop where
  | unaffected {after : StagedFile} (same : before.Unaffected after) :
      Effect store before after
  /-- The staging file may have changed, and the operation has to settle. -/
  | unsettled {after : StagedFile} (same : before.SameFlush after)
      (generation :
        after.entry.dirtyGeneration = before.entry.dirtyGeneration)
      (unsettled : after.Unsettled) : Effect store before after
  /-- The inode is marked dirty. -/
  | dirtied {after : StagedFile} (entry : InodeEntry)
      (same : before.SameFlush after)
      (earlier : entry.dirtyGeneration = before.entry.dirtyGeneration)
      (generation :
        after.entry.dirtyGeneration = entry.setDirty.dirtyGeneration)
      (moves : (∀ item, before.flush.item = some item →
        item.dirtyGeneration < u64Max)) : Effect store before after
  | unstaged {after : StagedFile} (same : before.SameFlush after)
      (generation :
        after.entry.dirtyGeneration = before.entry.dirtyGeneration)
      (absent : after.staging = none) : Effect store before after
  | dropped (flush : FlushPhase) (lock : Option LockHolder)
      (idle : flush.item = none) :
      Effect store before { before with flush, lock }
  | snapshotted (item : FlushItem) (dirty : 0 < item.dirtyGeneration)
      (generation : item.dirtyGeneration = before.entry.dirtyGeneration) :
      Effect store before { before with flush := .uploading item true }
  | uploaded (item : FlushItem) (content : Bytes) (undisturbed : Bool)
      (staged : Nat) (uploading : before.flush = .uploading item undisturbed)
      (found : before.staging = some staged)
      (read : undisturbed = true → content = before.disk staged) :
      Effect store before { before with flush := .uploaded item content }
  | released (item : FlushItem) (content : Bytes)
      (uploaded : before.flush = .uploaded item content) :
      Effect store before
        { before with
          flush := .released item content
          lock := none }
  | committed (item : FlushItem) (content : Bytes)
      (released : before.flush = .released item content) :
      Effect store before
        { before with
          flush := .committed item content
          remote := some content }
  | applied (item : FlushItem) (content : Bytes) (now : Time)
      (committed : before.flush = .committed item content) :
      Effect store before (before.applied store item content now)

/-! ## The effect of each step -/

theorem unsettled_setOp {file : StagedFile} {id : Nat} {op : FileOp}
    (changed : op.changed = true) : (file.setOp id (some op)).Unsettled :=
  ⟨id, op, Function.update_self _ _ _, changed⟩

/-- Replacing an operation that has changed nothing keeps the others
unsettled. -/
theorem Unsettled.setOp {file : StagedFile} (unsettled : file.Unsettled)
    {id : Nat} (harmless : ∀ op, file.op id = some op → op.changed = false)
    (next : Option FileOp) : (file.setOp id next).Unsettled := by
  obtain ⟨other, op, found, changed⟩ := unsettled
  refine ⟨other, op, ?_, changed⟩
  have distinct : other ≠ id := by
    rintro rfl
    rw [harmless op found] at changed
    cases changed
  simpa only [StagedFile.setOp, Function.update_of_ne distinct] using found

theorem unaffected_setOp {file : StagedFile} {id : Nat}
    (harmless : ∀ op, file.op id = some op → op.changed = false)
    (next : Option FileOp) : file.Unaffected (file.setOp id next) :=
  ⟨⟨rfl, rfl, rfl, fun _ _ => rfl, fun unsettled =>
    unsettled.setOp harmless next⟩, rfl, rfl, fun flagged => flagged⟩

theorem placeFile_sameFlush (file : StagedFile) (replaced : Bool)
    (content : Bytes) : file.SameFlush (file.placeFile replaced content) := by
  unfold placeFile
  split <;> exact ⟨Or.inr rfl, rfl⟩

@[simp] theorem placeFile_entry (file : StagedFile) (replaced : Bool)
    (content : Bytes) : (file.placeFile replaced content).entry = file.entry := by
  unfold placeFile
  split <;> rfl

section

variable {store : ContentStore} {before after : StagedFile} {id : Nat}

theorem openStart_effect {truncate : Bool}
    (stepped : before.openStart id truncate = some after) :
    Effect store before after := by
  unfold openStart at stepped
  split at stepped <;> rename_i free
  · obtain rfl := Option.some.inj stepped
    exact .unaffected (unaffected_setOp (by simp [free]) _)
  · cases stepped

theorem openEnter_effect (stepped : before.openEnter id = some after) :
    Effect store before after := by
  unfold openEnter at stepped
  split at stepped
  · rename_i hash size truncate waiting free
    have harmless : ∀ op, before.op id = some op → op.changed = false := by
      simp [waiting]
    have unsettled := fun (given : before.Unsettled) (next : Option FileOp) =>
      given.setOp harmless next
    split at stepped <;> obtain rfl := Option.some.inj stepped
    · exact .unaffected ⟨⟨rfl, rfl, rfl, fun _ _ => rfl,
        fun given => unsettled given _⟩, rfl, rfl, fun flagged => flagged⟩
    · exact .unaffected ⟨⟨rfl, rfl, rfl, fun _ _ => rfl,
        fun given => unsettled given _⟩, rfl, rfl, fun flagged => by
          cases flagged⟩
  · cases stepped

theorem openFill_effect {replaced : Bool}
    (stepped : before.openFill store id replaced = some after) :
    Effect store before after := by
  unfold openFill at stepped
  split at stepped
  · rename_i hash size truncate preparing
    have filled : ∀ place content, Effect store before
        ((before.placeFile place content).setOp id
          (some (.filled hash size truncate))) := by
      intro place content
      apply Effect.unsettled
      · exact before.placeFile_sameFlush place content
      · exact congrArg _ (before.placeFile_entry place content)
      · exact unsettled_setOp rfl
    split at stepped
    · split at stepped <;> obtain rfl := Option.some.inj stepped
      · exact filled _ _
      · have harmless : ∀ op, before.op id = some op →
            op.changed = false := by
          simp [preparing]
        exact .unaffected ⟨⟨rfl, rfl, rfl, fun _ _ => rfl,
          fun given => given.setOp harmless _⟩, rfl, rfl,
          fun flagged => flagged⟩
    · obtain rfl := Option.some.inj stepped
      exact filled _ _
  · cases stepped

theorem markedEntry_generation (entry : InodeEntry) (hash : Hash) (size : Nat)
    (truncate : Bool) :
    (markedEntry entry hash size truncate).dirtyGeneration =
      entry.dirtyGeneration := by
  unfold markedEntry
  dsimp only
  split <;> rfl

theorem openMark_effect (stepped : before.openMark id = some after) :
    Effect store before after := by
  unfold openMark at stepped
  split at stepped
  · rename_i hash size truncate filled
    obtain rfl := Option.some.inj stepped
    refine .unsettled ⟨Or.inl rfl, rfl⟩ ?_
      ⟨id, _, Function.update_self _ _ _, rfl⟩
    exact markedEntry_generation before.entry hash size truncate
  · cases stepped

theorem openDone_effect {now : Time}
    (moves : ∀ item, before.flush.item = some item →
      item.dirtyGeneration < u64Max)
    (stepped : before.openDone id now = some after) :
    Effect store before after := by
  unfold openDone at stepped
  split at stepped
  · obtain rfl := Option.some.inj stepped
    exact .dirtied before.entry ⟨Or.inl rfl, rfl⟩ rfl rfl moves
  · rename_i absent
    obtain rfl := Option.some.inj stepped
    exact .unstaged ⟨Or.inl rfl, rfl⟩ rfl absent
  · cases stepped

theorem setattr_effect {newSize : Nat}
    (stepped : before.setattr id newSize = some after) :
    Effect store before after := by
  unfold setattr at stepped
  split at stepped <;> rename_i free
  · obtain rfl := Option.some.inj stepped
    exact .unaffected (unaffected_setOp (by simp [free]) _)
  · cases stepped

theorem setattrEnter_effect
    (stepped : before.setattrEnter store id = some after) :
    Effect store before after := by
  unfold setattrEnter at stepped
  split at stepped
  · rename_i newSize waiting free
    have harmless : ∀ op, before.op id = some op → op.changed = false := by
      simp [waiting]
    have filled : ∀ place content, Effect store before
        { (before.placeFile place content).setOp id
            (some (.truncateReady newSize true)) with
          lock := some (.op id) } := by
      intro place content
      apply Effect.unsettled
      · exact before.placeFile_sameFlush place content
      · exact congrArg _ (before.placeFile_entry place content)
      · exact ⟨id, _, Function.update_self _ _ _, rfl⟩
    dsimp only at stepped
    split at stepped
    · obtain rfl := Option.some.inj stepped
      exact .unaffected ⟨⟨rfl, rfl, rfl, fun _ _ => rfl,
        fun given => given.setOp harmless _⟩, rfl, rfl, fun flagged => flagged⟩
    · split at stepped
      · split at stepped <;> obtain rfl := Option.some.inj stepped
        · exact filled _ _
        · exact .unaffected (unaffected_setOp harmless _)
      · obtain rfl := Option.some.inj stepped
        exact filled _ _
  · cases stepped

theorem setattrApply_effect {now : Time}
    (moves : ∀ item, before.flush.item = some item →
      item.dirtyGeneration < u64Max)
    (stepped : before.setattrApply id now = some after) :
    Effect store before after := by
  unfold setattrApply at stepped
  split at stepped
  · obtain rfl := Option.some.inj stepped
    exact .dirtied before.entry (before.placeFile_sameFlush _ _) rfl rfl moves
  · rename_i absent
    obtain rfl := Option.some.inj stepped
    exact .unstaged ⟨Or.inl rfl, rfl⟩ rfl absent
  · cases stepped

/-- A write through a handle to another file than the staged one changes
nothing here. -/
theorem pwrite_effect {handle offset : Nat} {data : Bytes}
    (stepped : before.pwrite id handle offset data = some after) :
    Effect store before after := by
  unfold pwrite at stepped
  split at stepped
  · rename_i free
    split at stepped
    · obtain rfl := Option.some.inj stepped
      by_cases staged : before.staging = some handle
      · apply Effect.unsettled
        · simp [SameFlush, staged, setOp]
        · rfl
        · exact ⟨id, _, Function.update_self _ _ _, by simp [staged]⟩
      · have elsewhere : (before.staging == some handle) = false := by
          simpa using staged
        have sameDisk : ∀ other, before.staging = some other →
            Function.update before.disk handle
                (writeAt (before.disk handle) offset data) other =
              before.disk other := by
          intro other found
          apply Function.update_of_ne
          rintro rfl
          exact staged found
        have flush : (if (before.staging == some handle) = true then
            before.flush.disturb else before.flush) = before.flush := by
          simp [elsewhere]
        exact .unaffected ⟨⟨flush, rfl, rfl, sameDisk, fun unsettled =>
          unsettled.setOp (by simp [free]) _⟩, rfl, rfl, fun flagged => flagged⟩
    · cases stepped
  · cases stepped

theorem writeDone_effect
    (moves : ∀ item, before.flush.item = some item →
      item.dirtyGeneration < u64Max)
    (stepped : before.writeDone id = some after) :
    Effect store before after := by
  unfold writeDone at stepped
  split at stepped
  · rename_i newEnd changed _
    obtain rfl := Option.some.inj stepped
    exact .dirtied { before.entry with size := max before.entry.size newEnd }
      ⟨Or.inl rfl, rfl⟩ rfl rfl moves
  · cases stepped

theorem gcOne_effect (stepped : before.gcOne = some after) :
    Effect store before after := by
  unfold gcOne at stepped
  split at stepped
  · split at stepped <;> obtain rfl := Option.some.inj stepped
    · exact .unaffected ⟨⟨rfl, rfl, rfl, fun _ _ => rfl, fun given => given⟩,
        rfl, rfl, fun flagged => flagged⟩
    · exact .unstaged ⟨Or.inl rfl, rfl⟩ rfl rfl
  · cases stepped

theorem flushLock_effect (stepped : before.flushLock = some after) :
    Effect store before after := by
  unfold flushLock at stepped
  split at stepped
  · obtain rfl := Option.some.inj stepped
    exact .dropped .locked (some .flush) rfl
  · cases stepped

theorem snapshotItem_generation {entry : InodeEntry} {stagingExists : Bool}
    {item : FlushItem}
    (snapshot : snapshotItem entry stagingExists = some item) :
    0 < item.dirtyGeneration ∧
      item.dirtyGeneration = entry.dirtyGeneration := by
  unfold snapshotItem at snapshot
  split at snapshot
  · cases snapshot
  split at snapshot <;> rename_i dirty
  · cases snapshot
  split at snapshot
  · cases snapshot
  obtain rfl := Option.some.inj snapshot
  exact ⟨InodeEntry.isDirty_iff.mp (by simpa using dirty), rfl⟩

theorem flushSnapshot_effect (stepped : before.flushSnapshot = some after) :
    Effect store before after := by
  unfold flushSnapshot at stepped
  split at stepped
  · split at stepped <;> rename_i snapshot <;>
      obtain rfl := Option.some.inj stepped
    · obtain ⟨positive, generation⟩ := snapshotItem_generation snapshot
      exact .snapshotted _ positive generation
    · exact .dropped .idle none rfl
  · cases stepped

theorem uploadOk_effect {content : Bytes}
    (stepped : before.uploadOk content = some after) :
    Effect store before after := by
  unfold uploadOk at stepped
  split at stepped
  · rename_i item undisturbed staged uploading found
    split at stepped <;> rename_i read
    · cases stepped
    obtain rfl := Option.some.inj stepped
    refine .uploaded item content undisturbed staged uploading found ?_
    rintro rfl
    simpa using read
  · cases stepped

theorem uploadFail_effect (stepped : before.uploadFail = some after) :
    Effect store before after := by
  unfold uploadFail at stepped
  split at stepped
  · obtain rfl := Option.some.inj stepped
    exact .dropped .idle none rfl
  · cases stepped

theorem flushUnlock_effect (stepped : before.flushUnlock = some after) :
    Effect store before after := by
  unfold flushUnlock at stepped
  split at stepped <;> rename_i phase
  · obtain rfl := Option.some.inj stepped
    exact .released _ _ phase
  · cases stepped

/-- The step skips the Hub commit, because the upload has given the hash that
the snapshot has. -/
def TakesShortcut (store : ContentStore) (before after : StagedFile) : Prop :=
  ∃ item content now, before.flush = .released item content ∧
    item.unchanged (store.hash content) = true ∧
    after = before.applied store item content now

theorem flushUnchanged_shortcut {now : Time}
    (stepped : before.flushUnchanged store now = some after) :
    before.TakesShortcut store after := by
  unfold flushUnchanged at stepped
  split at stepped <;> rename_i phase
  · split at stepped <;> rename_i unchanged
    · obtain rfl := Option.some.inj stepped
      exact ⟨_, _, now, phase, unchanged, rfl⟩
    · cases stepped
  · cases stepped

theorem hubOk_effect (stepped : before.hubOk store = some after) :
    Effect store before after := by
  unfold hubOk at stepped
  split at stepped <;> rename_i phase
  · split at stepped
    · cases stepped
    obtain rfl := Option.some.inj stepped
    exact .committed _ _ phase
  · cases stepped

theorem hubFail_effect (stepped : before.hubFail store = some after) :
    Effect store before after := by
  unfold hubFail at stepped
  split at stepped
  · split at stepped
    · cases stepped
    obtain rfl := Option.some.inj stepped
    exact .dropped .idle before.lock rfl
  · cases stepped

theorem applyCommit_effect {now : Time}
    (stepped : before.applyCommit store now = some after) :
    Effect store before after := by
  unfold applyCommit at stepped
  split at stepped <;> rename_i phase
  · obtain rfl := Option.some.inj stepped
    exact .applied _ _ now phase
  · cases stepped

end

theorem step_effect {store : ContentStore} {before after : StagedFile}
    {event : FileEvent} (moves : before.GenerationMoves event)
    (stepped : before.step store event = some after) :
    Effect store before after ∨ (∃ now, event = .flushUnchanged now) ∧
      before.TakesShortcut store after := by
  cases event with
  | openStart => exact Or.inl (openStart_effect stepped)
  | openEnter => exact Or.inl (openEnter_effect stepped)
  | openFill => exact Or.inl (openFill_effect stepped)
  | openMark => exact Or.inl (openMark_effect stepped)
  | openDone => exact Or.inl (openDone_effect moves stepped)
  | setattr => exact Or.inl (setattr_effect stepped)
  | setattrEnter => exact Or.inl (setattrEnter_effect stepped)
  | setattrApply => exact Or.inl (setattrApply_effect moves stepped)
  | pwrite => exact Or.inl (pwrite_effect stepped)
  | writeDone => exact Or.inl (writeDone_effect moves stepped)
  | gcOne => exact Or.inl (gcOne_effect stepped)
  | flushLock => exact Or.inl (flushLock_effect stepped)
  | flushSnapshot => exact Or.inl (flushSnapshot_effect stepped)
  | uploadOk => exact Or.inl (uploadOk_effect stepped)
  | uploadFail => exact Or.inl (uploadFail_effect stepped)
  | flushUnlock => exact Or.inl (flushUnlock_effect stepped)
  | flushUnchanged now =>
      exact Or.inr ⟨⟨now, rfl⟩, flushUnchanged_shortcut stepped⟩
  | hubOk => exact Or.inl (hubOk_effect stepped)
  | hubFail => exact Or.inl (hubFail_effect stepped)
  | applyCommit => exact Or.inl (applyCommit_effect stepped)

/-! ## The running flush -/

/-- The snapshot of a running flush is not newer than the inode, and its
content is what is staged unless the snapshot is overtaken. -/
structure Tracked (file : StagedFile) : Prop where
  bounded : file.entry.dirtyGeneration ≤ u64Max
  snapshot : ∀ item, file.flush.item = some item →
    0 < item.dirtyGeneration ∧
      item.dirtyGeneration ≤ file.entry.dirtyGeneration
  disturbed : ∀ item, file.flush = .uploading item false →
    file.Overtaken item ∨ file.staging = none
  content : ∀ item content, file.flush.item = some item →
    file.flush.content = some content →
    file.Overtaken item ∨ file.Holds content

theorem tracked_of_idle {file : StagedFile}
    (bounded : file.entry.dirtyGeneration ≤ u64Max)
    (idle : file.flush.item = none) : file.Tracked := by
  have absent : ∀ item, file.flush.item ≠ some item := by
    intro item running
    rw [idle] at running
    cases running
  refine ⟨bounded, ?_, ?_, ?_⟩
  · exact fun item running => absurd running (absent item)
  · exact fun item uploading => absurd (by simp [uploading]) (absent item)
  · exact fun item content running => absurd running (absent item)

section

variable {store : ContentStore} {before after : StagedFile}

theorem Tracked.unaffected (tracked : before.Tracked)
    (same : before.SameStaging after) : after.Tracked := by
  have overtaken : ∀ item, before.Overtaken item → after.Overtaken item := by
    intro item holds
    exact holds.imp (fun passed => same.generation ▸ passed) same.unsettled
  refine ⟨same.generation ▸ tracked.bounded, ?_, ?_, ?_⟩
  · rw [same.flush, same.generation]
    exact tracked.snapshot
  · intro item uploading
    rw [same.staging]
    exact (tracked.disturbed item (same.flush ▸ uploading)).imp_left
      (overtaken item)
  · intro item content running uploaded
    rw [same.flush] at running uploaded
    refine (tracked.content item content running uploaded).imp
      (overtaken item) ?_
    intro holds staged found
    rw [same.staging] at found
    exact (same.disk staged found).trans (holds staged found)

theorem Tracked.unsettled (tracked : before.Tracked)
    (same : before.SameFlush after)
    (generation : after.entry.dirtyGeneration = before.entry.dirtyGeneration)
    (unsettled : after.Unsettled) : after.Tracked := by
  refine ⟨generation ▸ tracked.bounded, ?_, ?_, ?_⟩
  · rw [same.item, generation]
    exact tracked.snapshot
  · exact fun item _ => Or.inl (Or.inr unsettled)
  · exact fun item content _ _ => Or.inl (Or.inr unsettled)

/-- Marking the inode dirty overtakes the running flush. -/
theorem Tracked.passed (tracked : before.Tracked) {entry : InodeEntry}
    (same : before.SameFlush after)
    (earlier : entry.dirtyGeneration = before.entry.dirtyGeneration)
    (generation :
      after.entry.dirtyGeneration = entry.setDirty.dirtyGeneration)
    (moves : ∀ item, before.flush.item = some item →
      item.dirtyGeneration < u64Max) :
    ∀ item, after.flush.item = some item → 0 < item.dirtyGeneration ∧
      item.dirtyGeneration < after.entry.dirtyGeneration := by
  intro item running
  rw [same.item] at running
  obtain ⟨positive, atMost⟩ := tracked.snapshot item running
  have below := moves item running
  rw [generation]
  simp only [InodeEntry.setDirty]
  omega

theorem Tracked.dirtied (tracked : before.Tracked) {entry : InodeEntry}
    (same : before.SameFlush after)
    (earlier : entry.dirtyGeneration = before.entry.dirtyGeneration)
    (generation :
      after.entry.dirtyGeneration = entry.setDirty.dirtyGeneration)
    (moves : ∀ item, before.flush.item = some item →
      item.dirtyGeneration < u64Max) : after.Tracked := by
  have passed := tracked.passed same earlier generation moves
  refine ⟨?_, ?_, ?_, ?_⟩
  · rw [generation]
    simp only [InodeEntry.setDirty]
    omega
  · exact fun item running =>
      ⟨(passed item running).1, Nat.le_of_lt (passed item running).2⟩
  · intro item uploading
    exact Or.inl (Or.inl (passed item (by simp [uploading])).2)
  · exact fun item content running _ => Or.inl (Or.inl (passed item running).2)

theorem Tracked.unstaged (tracked : before.Tracked)
    (same : before.SameFlush after)
    (generation : after.entry.dirtyGeneration = before.entry.dirtyGeneration)
    (absent : after.staging = none) : after.Tracked := by
  refine ⟨generation ▸ tracked.bounded, ?_, ?_, ?_⟩
  · rw [same.item, generation]
    exact tracked.snapshot
  · exact fun item _ => Or.inr absent
  · intro item content _ _
    right
    intro staged found
    rw [absent] at found
    cases found

/-- Moving on with the same item and content. -/
theorem Tracked.advance (tracked : before.Tracked) {item : FlushItem}
    {content : Bytes} (running : before.flush.item = some item)
    (uploaded : before.flush.content = some content)
    (phase : FlushPhase) (lock : Option LockHolder) (remote : Option Bytes)
    (sameItem : phase.item = some item)
    (sameContent : phase.content = some content) :
    ({ before with flush := phase, lock, remote } : StagedFile).Tracked := by
  refine ⟨tracked.bounded, ?_, ?_, ?_⟩
  · intro other found
    obtain rfl := Option.some.inj (sameItem.symm.trans found)
    exact tracked.snapshot item running
  · intro other uploading
    dsimp only at uploading
    rw [uploading] at sameContent
    cases sameContent
  · intro other read found readFound
    obtain rfl := Option.some.inj (sameItem.symm.trans found)
    obtain rfl := Option.some.inj (sameContent.symm.trans readFound)
    exact tracked.content item content running uploaded

theorem Tracked.applied (tracked : before.Tracked) (item : FlushItem)
    (content : Bytes) (now : Time) :
    (before.applied store item content now).Tracked := by
  apply tracked_of_idle _ rfl
  unfold StagedFile.applied
  by_cases same : before.entry.dirtyGeneration = item.dirtyGeneration
  · rw [InodeEntry.applyCommit_of_eq same]
    exact Nat.zero_le _
  · rw [InodeEntry.applyCommit_of_ne same]
    exact tracked.bounded

theorem Tracked.effect (tracked : before.Tracked)
    (effect : Effect store before after) : after.Tracked := by
  cases effect with
  | unaffected same => exact tracked.unaffected same.toSameStaging
  | unsettled same generation unsettled =>
      exact tracked.unsettled same generation unsettled
  | dirtied entry same earlier generation moves =>
      exact tracked.dirtied same earlier generation moves
  | unstaged same generation absent =>
      exact tracked.unstaged same generation absent
  | dropped flush lock idle => exact tracked_of_idle tracked.bounded idle
  | snapshotted item dirty generation =>
      refine ⟨tracked.bounded, ?_, ?_, ?_⟩
      · rintro other ⟨⟩
        exact ⟨dirty, Nat.le_of_eq generation⟩
      · rintro other ⟨⟩
      · rintro other content _ ⟨⟩
  | uploaded item content undisturbed staged uploading found read =>
      refine ⟨tracked.bounded, ?_, ?_, ?_⟩
      · rintro other ⟨⟩
        exact tracked.snapshot item (by simp [uploading])
      · rintro other ⟨⟩
      · rintro other uploaded ⟨⟩ ⟨⟩
        cases undisturbed with
        | true =>
            right
            intro other staging
            obtain rfl := Option.some.inj (found.symm.trans staging)
            exact (read rfl).symm
        | false =>
            rcases tracked.disturbed item uploading with overtaken | absent
            · exact Or.inl overtaken
            · rw [absent] at found
              cases found
  | released item content uploaded =>
      exact tracked.advance (by simp [uploaded]) (by simp [uploaded])
        (.released item content) none before.remote rfl rfl
  | committed item content released =>
      exact tracked.advance (by simp [released]) (by simp [released])
        (.committed item content) before.lock (some content) rfl rfl
  | applied item content now => exact tracked.applied item content now

/-- What a commit that lands finds in the staging file. -/
theorem Tracked.holds_of_lands (tracked : before.Tracked) {item : FlushItem}
    {content : Bytes}
    (committed : before.flush = .committed item content ∨
      before.flush = .released item content)
    (lands : before.entry.dirtyGeneration = item.dirtyGeneration)
    (settled : ¬ before.Unsettled) : before.Holds content := by
  have running : before.flush.item = some item ∧
      before.flush.content = some content := by
    rcases committed with phase | phase <;> simp [phase]
  rcases tracked.content item content running.1 running.2 with
    (passed | unsettled) | holds
  · omega
  · exact absurd unsettled settled
  · exact holds

end

end StagedFile

end HfMount.Flush
