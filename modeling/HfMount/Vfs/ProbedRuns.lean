import HfMount.Flush.Effects
import HfMount.Vfs.ProbedSizes

/-!
# Probed sizes in every run

A flush uploads the container of a dirty file, and its commit makes the object
of it the object of the file.
-/

namespace HfMount.Vfs

open SlashPath Inode Poll Flush Transition

namespace SizeRepairs

section

variable {mount : EncryptedMount} {before after state : SizeRepairs} {id : Nat}
  {ino : Ino}

/-! ## Commits -/

/-- The flush of one inode goes on or ends. -/
structure FlushMove (ino : Ino) (before after : SizeRepairs) : Prop where
  tasks : after.tasks = before.tasks
  staged : after.staged = before.staged
  table : ∀ other, other ≠ ino →
    after.table.get other = before.table.get other
  flush : ∀ other, other ≠ ino → after.flush other = before.flush other
  lockElsewhere : ∀ other, other ≠ ino → after.lock other = before.lock other
  lock : ∀ id, before.lock ino = some (.op id) →
    after.lock ino = some (.op id)
  uploading : ∀ item, after.flush ino = some (.uploading item) →
    after.lock ino = some .flush

theorem FlushMove.containers (move : FlushMove ino before after) :
    SameContainers before after := by
  refine ⟨move.staged, ?_⟩
  intro id task left running leaves
  exact ⟨id, task, by rw [move.tasks]; exact running, leaves⟩

theorem Sound.flushMove (sound : Sound mount before)
    (move : FlushMove ino before after)
    (here : ∀ new, after.table.get ino = some new → new.kind = .file →
      FileSound mount after ino new) : Sound mount after := by
  constructor
  · intro other new found file
    by_cases same : other = ino
    · subst same
      exact here new found file
    · rw [move.table other same] at found
      exact (sound.file other new found file).same move.containers
        (move.flush other same)
  · intro id task target found locked
    rw [move.tasks] at found
    have held := sound.locked id task target found locked
    by_cases same : target = ino
    · subst same
      exact move.lock id held
    · exact (move.lockElsewhere target same).trans held
  · intro other item flushing
    by_cases same : other = ino
    · subst same
      exact move.uploading item flushing
    · rw [move.flush other same] at flushing
      exact (move.lockElsewhere other same).trans
        (sound.uploading other item flushing)
  · rw [move.tasks]
    exact sound.compared
  · rw [move.tasks]
    exact sound.probed

theorem FileSound.ended {entry : InodeEntry}
    (sound : FileSound mount before ino entry)
    (same : SameContainers before after) (flush : after.flush ino = none) :
    FileSound mount after ino entry := by
  refine ⟨sound.sized, sound.ciphered, ?_, ?_, ?_⟩
  · intro dirty unflagged
    exact (sound.reflected dirty unflagged).same same
  · intro running flushing
    rw [flush] at flushing
    cases flushing
  · intro item hash size flushing
    rw [flush] at flushing
    cases flushing

theorem sound_flushSnapshot (sound : Sound mount before)
    (stepped : before.flushSnapshot ino = some after) : Sound mount after := by
  unfold flushSnapshot at stepped
  split at stepped
  · rename_i entry idle free found
    obtain ⟨item, snapshot, rfl⟩ := Option.map_eq_some_iff.mp stepped
    obtain ⟨positive, generation⟩ :=
      StagedFile.snapshotItem_generation snapshot
    have move : FlushMove ino before
        ((before.setFlush ino (some (.uploading item))).setLock ino
          (some .flush)) := by
      refine ⟨rfl, rfl, fun _ _ => rfl,
        fun other different => Function.update_of_ne different _ _,
        fun other different => Function.update_of_ne different _ _, ?_,
        fun _ _ => Function.update_self _ _ _⟩
      intro id held
      rw [free] at held
      cases held
    apply sound.flushMove move
    intro new got file
    obtain rfl := Option.some.inj (found.symm.trans got)
    have soundFile := sound.file ino entry found file
    refine ⟨soundFile.sized, soundFile.ciphered, ?_, ?_, ?_⟩
    · intro dirty unflagged
      exact (soundFile.reflected dirty unflagged).same move.containers
    · intro running flushing
      obtain rfl := Option.some.inj
        ((Function.update_self ino _ before.flush).symm.trans flushing)
      exact ⟨positive, Nat.le_of_eq generation⟩
    · intro other hash size flushing
      cases (Function.update_self ino _ before.flush).symm.trans flushing
  · cases stepped

/-- Only a write leaves a size without the lock. -/
theorem writing_of_leaves {task : SizeTask} {newSize : Nat}
    (sound : Sound mount state) (running : state.tasks id = some task)
    (leaves : task.leaves = some (ino, newSize))
    (foreign : state.lock ino ≠ some (.op id)) :
    task = .writing ino newSize := by
  have unlocked : task.locked ≠ some ino := by
    intro locked
    exact foreign (sound.locked id task ino running locked)
  cases task with
  | repairing pending probed => cases leaves
  | comparing entries prefixes snapshot => cases leaves
  | ensuring target call object => cases leaves
  | ensured target call =>
      cases call with
      | opening truncate =>
          cases truncate with
          | true =>
              cases leaves
              exact absurd rfl unlocked
          | false => cases leaves
      | truncating newSize => cases leaves
  | resized target newSize =>
      cases leaves
      exact absurd rfl unlocked
  | writing target newPlaintext =>
      cases leaves
      rfl

theorem sound_upload {hash : Hash} {size : Nat} (sound : Sound mount before)
    (careful : before.Careful (.upload ino hash size))
    (stepped : before.upload mount ino hash size = some after) :
    Sound mount after := by
  unfold upload at stepped
  split at stepped
  · rename_i item running
    split at stepped <;> rename_i isObject
    · obtain rfl := Option.some.inj stepped
      have held := sound.uploading ino item running
      have move : FlushMove ino before
          ((before.setFlush ino (some (.uploaded item hash size))).setLock ino
            none) := by
        refine ⟨rfl, rfl, fun _ _ => rfl,
          fun other different => Function.update_of_ne different _ _,
          fun other different => Function.update_of_ne different _ _, ?_, ?_⟩
        · intro id foreign
          rw [held] at foreign
          cases foreign
        · intro other flushing
          cases (Function.update_self ino _ before.flush).symm.trans flushing
      apply sound.flushMove move
      intro entry found file
      have soundFile := sound.file ino entry found file
      obtain ⟨positive, atMost⟩ := soundFile.tracked _ running
      refine ⟨soundFile.sized, soundFile.ciphered, ?_, ?_, ?_⟩
      · intro dirty unflagged
        exact (soundFile.reflected dirty unflagged).same move.containers
      · intro other flushing
        obtain rfl := Option.some.inj
          ((Function.update_self ino _ before.flush).symm.trans flushing)
        exact ⟨positive, atMost⟩
      · intro other uploaded length flushing current unflagged
        cases (Function.update_self ino _ before.flush).symm.trans flushing
        simp only [SizeFlush.item] at positive
        have reflected := soundFile.reflected (by omega) unflagged
        rcases reflected.container with level | ⟨id, task, newSize, isTask,
          leaves, _⟩
        · rw [level] at isObject
          exact (Option.some.inj isObject).symm
        · -- the flush has the lock, and no write is on its way
          have writing := writing_of_leaves sound isTask leaves
            (by rw [held]; rintro ⟨⟩)
          rw [writing] at isTask
          exact absurd isTask
            (careful _ running entry found current unflagged id newSize)
    · cases stepped
  · cases stepped

theorem sound_flushFails (sound : Sound mount before)
    (stepped : before.flushFails ino = some after) : Sound mount after := by
  have ends : ∀ next : SizeRepairs, FlushMove ino before next →
      next.table = before.table → next.flush ino = none →
      Sound mount next := by
    intro next move table flush
    apply sound.flushMove move
    intro entry found file
    rw [table] at found
    exact (sound.file ino entry found file).ended move.containers flush
  unfold flushFails at stepped
  split at stepped
  · rename_i item running
    obtain rfl := Option.some.inj stepped
    refine ends _ ?_ rfl (Function.update_self _ _ _)
    refine ⟨rfl, rfl, fun _ _ => rfl,
      fun other different => Function.update_of_ne different _ _,
      fun other different => Function.update_of_ne different _ _, ?_, ?_⟩
    · intro id foreign
      rw [sound.uploading ino item running] at foreign
      cases foreign
    · intro other flushing
      cases (Function.update_self ino _ before.flush).symm.trans flushing
  · obtain rfl := Option.some.inj stepped
    refine ends _ ?_ rfl (Function.update_self _ _ _)
    refine ⟨rfl, rfl, fun _ _ => rfl,
      fun other different => Function.update_of_ne different _ _,
      fun _ _ => rfl, fun _ held => held, ?_⟩
    intro other flushing
    cases (Function.update_self ino _ before.flush).symm.trans flushing
  · cases stepped

theorem sound_commit {now : Time} (sound : Sound mount before)
    (stepped : before.commit ino now = some after) : Sound mount after := by
  unfold commit at stepped
  split at stepped
  · rename_i item hash size running
    obtain rfl := Option.some.inj stepped
    have move : FlushMove ino before { before.setFlush ino none with
        table := before.table.modify ino
          (·.applyCommit hash size item.dirtyGeneration now) } := by
      refine ⟨rfl, rfl,
        fun other different => InodeTable.get_modify_of_ne _ different _,
        fun other different => Function.update_of_ne different _ _,
        fun _ _ => rfl, fun _ held => held, ?_⟩
      intro other flushing
      cases (Function.update_self ino _ before.flush).symm.trans flushing
    apply sound.flushMove move
    intro new got file
    rw [InodeTable.get_modify, if_pos rfl] at got
    obtain ⟨entry, found, rfl⟩ := Option.map_eq_some_iff.mp got
    by_cases lands : entry.dirtyGeneration = item.dirtyGeneration
    · rw [InodeEntry.applyCommit_of_eq lands] at file ⊢
      have soundFile := sound.file ino entry found file
      have ciphered := soundFile.ciphered
      refine ⟨?_, ?_, ?_, ?_, ?_⟩
      · intro _ unflagged named isHash
        simp only [InodeEntry.recordCommit, ciphered, if_true] at isHash ⊢
        cases isHash
        exact soundFile.uploaded item hash size running lands.symm unflagged
      · simp only [InodeEntry.recordCommit, ciphered, if_true,
          Option.isSome_some]
      · intro dirty
        cases dirty
      · intro other flushing
        cases (Function.update_self ino _ before.flush).symm.trans flushing
      · intro other named length flushing
        cases (Function.update_self ino _ before.flush).symm.trans flushing
    · rw [InodeEntry.applyCommit_of_ne lands] at file ⊢
      have ended := (sound.file ino entry found file).ended move.containers
        (by exact Function.update_self _ _ _)
      exact ended.learned (.same ⟨rfl, rfl, rfl, rfl, rfl, rfl⟩)
  · cases stepped

/-! ## Runs -/

theorem sound_step {event : SizeEvent} (sound : Sound mount before)
    (careful : before.Careful event)
    (stepped : before.step mount event = some after) : Sound mount after := by
  cases event with
  | repair id => exact sound_repair sound stepped
  | probe id probe reachable => exact sound_probe sound stepped
  | writeBack id => exact sound_writeBack sound careful stepped
  | compare id entries prefixes => exact sound_compare sound stepped
  | applyDiff id now => exact sound_applyDiff sound stepped
  | revalidate call answer reachable now =>
      obtain rfl := Option.some.inj stepped
      exact sound_revalidate sound call answer reachable now
  | encryptedEnter id ino call => exact sound_encryptedEnter sound stepped
  | encryptedFill id => exact sound_encryptedFill sound careful stepped
  | encryptedTruncate id => exact sound_encryptedTruncate sound stepped
  | encryptedDone id now => exact sound_encryptedDone sound careful stepped
  | encryptedWrite id ino newPlaintext =>
      exact sound_encryptedWrite sound stepped
  | writeDone id => exact sound_writeDone sound careful stepped
  | fail id left => exact sound_fail sound careful stepped
  | flushSnapshot ino => exact sound_flushSnapshot sound stepped
  | upload ino hash size => exact sound_upload sound careful stepped
  | flushFails ino => exact sound_flushFails sound stepped
  | commit ino now => exact sound_commit sound stepped

/-- Nothing is in progress, and no size is wrong. -/
structure Settled (mount : EncryptedMount) (state : SizeRepairs) : Prop where
  tasks : ∀ id, state.tasks id = none
  flush : ∀ ino, state.flush ino = none
  ciphered : ∀ ino entry, state.table.get ino = some entry →
    entry.kind = .file → entry.cipherSize.isSome = true
  sized : ∀ ino entry, state.table.get ino = some entry →
    entry.kind = .file → entry.isDirty = false →
    entry.needsSizeProbe = false → mount.Sized entry
  staged : ∀ ino entry, state.table.get ino = some entry →
    entry.kind = .file → entry.isDirty = true →
    entry.needsSizeProbe = false →
    state.staged ino = some (some entry.size)

theorem Settled.sound (settled : Settled mount state) : Sound mount state := by
  constructor
  · intro ino entry found file
    refine ⟨?_, settled.ciphered ino entry found file, ?_, ?_, ?_⟩
    · intro clean
      exact settled.sized ino entry found file
        (InodeEntry.isDirty_eq_false_iff.mpr clean)
    · intro dirty unflagged
      exact ⟨Or.inl (settled.staged ino entry found file
        (InodeEntry.isDirty_iff.mpr dirty) unflagged)⟩
    · intro running flushing
      rw [settled.flush ino] at flushing
      cases flushing
    · intro item hash size flushing
      rw [settled.flush ino] at flushing
      cases flushing
  · intro id task ino found
    rw [settled.tasks id] at found
    cases found
  · intro ino item flushing
    rw [settled.flush ino] at flushing
    cases flushing
  · intro id entries prefixes snapshot found
    rw [settled.tasks id] at found
    cases found
  · intro id pending probed found
    rw [settled.tasks id] at found
    cases found

/-- A clean file that waits for no probe has the plaintext size of its
object. -/
def SizesOfObjects (mount : EncryptedMount) (state : SizeRepairs) : Prop :=
  ∀ ino entry, state.table.get ino = some entry → entry.kind = .file →
    entry.isDirty = false → entry.needsSizeProbe = false → mount.Sized entry

/-- In every run whose steps are careful, a clean file that waits for no probe
has the plaintext size of its object. -/
theorem sizes_of_objects_of_careful {start final : SizeRepairs}
    {events : List SizeEvent} (settled : Settled mount start)
    (careful : AllSteps (step mount) Careful start events)
    (run : exec (step mount) start events = some final) :
    SizesOfObjects mount final := by
  have sound := exec_invariant
    (fun _ _ _ sound careful stepped => sound_step sound careful stepped)
    settled.sound careful run
  intro ino entry found file clean unflagged
  exact (sound.file ino entry found file).sized
    (InodeEntry.isDirty_eq_false_iff.mp clean) unflagged

end

/-- The objects `1`, `2` and `3` have three, five and two bytes. -/
def threeObjects : EncryptedMount :=
  { objects := fun hash =>
      if hash = ['1'] then some 3
      else if hash = ['2'] then some 5
      else if hash = ['3'] then some 2
      else none
    settings :=
      { serveLookupFromCache := false
        metadataTtl := 0
        encrypting := true }
    encrypting := rfl }

/-- The length of the containers of `threeObjects`. -/
def oneSlot : Nat := 65638

/-- A file `a` that a poll has flagged. -/
def flagged : SizeRepairs :=
  { table := (InodeTable.new.insert rootInode ['a'] ['a'] .file 1 0
      (some ['1']) 420 0 0 0).2.modify 2 fun entry =>
        { entry with
          cipherSize := some oneSlot
          needsSizeProbe := true }
    staged := fun _ => none
    lock := fun _ => none
    tasks := fun _ => none
    flush := fun _ => none }

theorem settled_flagged (mount : EncryptedMount) : Settled mount flagged := by
  have files : ∀ entry ∈ flagged.table.values, entry.kind = .file →
      entry.cipherSize.isSome = true ∧ entry.needsSizeProbe = true := by
    decide
  have waits : ∀ ino entry, flagged.table.get ino = some entry →
      entry.kind = .file →
      entry.cipherSize.isSome = true ∧ entry.needsSizeProbe = true :=
    fun ino entry found => files entry (InodeTable.mem_values.mpr ⟨ino, found⟩)
  refine ⟨fun _ => rfl, fun _ => rfl,
    fun ino entry found file => (waits ino entry found file).1, ?_, ?_⟩
  · intro ino entry found file _ unflagged
    rw [(waits ino entry found file).2] at unflagged
    cases unflagged
  · intro ino entry found file _ unflagged
    rw [(waits ino entry found file).2] at unflagged
    cases unflagged

/-- The size is repaired, and the file is truncated and flushed. -/
def repairedAndTruncated : List SizeEvent :=
  [.repair 0, .probe 0 ⟨2, ['1'], oneSlot⟩ true, .writeBack 0,
    .encryptedEnter 0 2 (.truncating 2), .encryptedFill 0,
    .encryptedTruncate 0, .encryptedDone 0 1, .flushSnapshot 2,
    .upload 2 ['3'] oneSlot, .commit 2 2]

theorem careful_repairedAndTruncated :
    AllSteps (step threeObjects) Careful flagged repairedAndTruncated := by
  refine .cons trivial rfl (.cons trivial rfl (.cons ?_ rfl ?_))
  · intro result listed _
    obtain rfl := List.mem_singleton.mp listed
    decide
  refine .cons trivial rfl (.cons (Or.inr ?_) rfl ?_)
  · intro entry found
    cases found
    exact Or.inl rfl
  refine .cons trivial rfl (.cons ?_ rfl ?_)
  · intro entry found
    refine ⟨fun _ => Or.inl rfl, ?_⟩
    rintro running ⟨⟩
  refine .cons trivial rfl (.cons ?_ rfl (.cons trivial rfl trivial))
  rintro running ⟨⟩ entry found _ _ (_ | id) newPlaintext ⟨⟩

theorem sizes_of_objects_of_careful_truncated :
    SizesOfObjects threeObjects
      ((exec (step threeObjects) flagged repairedAndTruncated).get rfl) :=
  sizes_of_objects_of_careful (settled_flagged _) careful_repairedAndTruncated
    (Option.some_get _).symm

/-- A lookup finds another object, with its size, while the old one is
probed. -/
theorem size_of_old_object :
    ¬ ∀ (mount : EncryptedMount) (start final : SizeRepairs)
      (events : List SizeEvent), Settled mount start →
      exec (step mount) start events = some final →
      SizesOfObjects mount final := by
  intro claim
  have sizes := claim threeObjects flagged _
    [.repair 0, .probe 0 ⟨2, ['1'], oneSlot⟩ true,
      .revalidate ⟨2, ['a'], some ['1'], none⟩
        (.found ⟨some ['2'], none, some oneSlot, none⟩) true 1,
      .writeBack 0] (settled_flagged _) rfl
  have sized := sizes 2 _ rfl rfl rfl rfl ['2'] rfl
  exact absurd sized (by decide)

end SizeRepairs

end HfMount.Vfs
