import HfMount.Vfs.SizeRepairs

/-!
# A probed size belongs to its object

The sizes of clean files are those of their objects, the sizes of dirty files
those of their containers or about to be, and a flush knows the size of what
it has uploaded.  Every step keeps this, except that a size is written back to
a file that has another object by then.
-/

namespace HfMount.Vfs

open SlashPath Inode Poll Flush Transition

namespace SizeRepairs

/-- The container has the size, or a task has given it the size it has. -/
structure Reflected (state : SizeRepairs) (ino : Ino) (size : Nat) : Prop where
  container : state.staged ino = some (some size) ∨ ∃ id task newSize,
    state.tasks id = some task ∧ task.leaves = some (ino, newSize) ∧
    state.staged ino = some (some newSize)

/-- The size of one file in a state. -/
structure FileSound (mount : EncryptedMount) (state : SizeRepairs) (ino : Ino)
    (entry : InodeEntry) : Prop where
  sized : entry.dirtyGeneration = 0 → entry.needsSizeProbe = false →
    mount.Sized entry
  ciphered : entry.cipherSize.isSome = true
  reflected : 0 < entry.dirtyGeneration → entry.needsSizeProbe = false →
    state.Reflected ino entry.size
  tracked : ∀ running ∈ state.flush ino, 0 < running.item.dirtyGeneration ∧
    running.item.dirtyGeneration ≤ entry.dirtyGeneration
  uploaded : ∀ item hash size,
    state.flush ino = some (.uploaded item hash size) →
    item.dirtyGeneration = entry.dirtyGeneration →
    entry.needsSizeProbe = false → mount.objects hash = some entry.size

structure Sound (mount : EncryptedMount) (state : SizeRepairs) : Prop where
  file : ∀ ino entry, state.table.get ino = some entry → entry.kind = .file →
    FileSound mount state ino entry
  locked : ∀ id task ino, state.tasks id = some task →
    task.locked = some ino → state.lock ino = some (.op id)
  uploading : ∀ ino item, state.flush ino = some (.uploading item) →
    state.lock ino = some .flush
  compared : ∀ id entries prefixes snapshot,
    state.tasks id = some (.comparing entries prefixes snapshot) →
    ∀ seen ∈ snapshot, seen.cipherSize.isSome = true
  probed : ∀ id pending probed,
    state.tasks id = some (.repairing pending probed) →
    ∀ result ∈ probed, ∀ plaintext, result.2 = some plaintext →
      mount.objects result.1.xetHash = some plaintext

section

variable {mount : EncryptedMount} {before after state : SizeRepairs} {id : Nat}
  {ino : Ino}

/-! ## Frames -/

/-- The containers and the sizes that tasks leave there are as they were. -/
structure SameContainers (before after : SizeRepairs) : Prop where
  staged : after.staged = before.staged
  leaves : ∀ id task left, before.tasks id = some task →
    task.leaves = some left →
      ∃ other kept, after.tasks other = some kept ∧ kept.leaves = some left

theorem Reflected.same {size : Nat} (reflected : before.Reflected ino size)
    (same : SameContainers before after) : after.Reflected ino size := by
  constructor
  rw [same.staged]
  refine reflected.container.imp_right ?_
  rintro ⟨id, task, newSize, running, leaves, staged⟩
  obtain ⟨other, kept, found, left⟩ := same.leaves id task _ running leaves
  exact ⟨other, kept, newSize, found, left, staged⟩

theorem FileSound.same {entry : InodeEntry}
    (sound : FileSound mount before ino entry)
    (same : SameContainers before after)
    (flush : after.flush ino = before.flush ino) :
    FileSound mount after ino entry := by
  refine ⟨sound.sized, sound.ciphered, ?_, ?_, ?_⟩
  · intro dirty unflagged
    exact (sound.reflected dirty unflagged).same same
  · rw [flush]
    exact sound.tracked
  · rw [flush]
    exact sound.uploaded

/-- What the remote makes of a file leaves it sound: a clean file is not being
flushed. -/
theorem FileSound.learned {old new : InodeEntry}
    (sound : FileSound mount state ino old) (learned : Learned mount old new) :
    FileSound mount state ino new := by
  cases learned with
  | same same =>
      refine ⟨?_, ?_, ?_, ?_, ?_⟩
      · unfold EncryptedMount.Sized
        rw [same.generation, same.needsSizeProbe, same.xetHash, same.size]
        exact sound.sized
      · rw [same.cipherSize]
        exact sound.ciphered
      · rw [same.generation, same.needsSizeProbe, same.size]
        exact sound.reflected
      · rw [same.generation]
        exact sound.tracked
      · rw [same.generation, same.needsSizeProbe, same.size]
        exact sound.uploaded
  | renewed renewed =>
      have idle : ∀ running, state.flush ino ≠ some running := by
        intro running flushing
        have tracked := sound.tracked running flushing
        have clean := renewed.clean
        omega
      refine ⟨fun _ => renewed.sized, renewed.cipherSize sound.ciphered, ?_,
        ?_, ?_⟩
      · intro dirty
        have clean := renewed.generation
        omega
      · exact fun running flushing => absurd flushing (idle running)
      · exact fun _ _ _ flushing => absurd flushing (idle _)

/-- The tasks but one are as they were. -/
theorem task_of_setTask {next : Option SizeTask} {other : Nat}
    {task : SizeTask}
    (found : Function.update before.tasks id next other = some task) :
    next = some task ∨ before.tasks other = some task := by
  by_cases same : other = id
  · subst same
    rw [Function.update_self] at found
    exact Or.inl found
  · rw [Function.update_of_ne same] at found
    exact Or.inr found

/-- The remote changes the table. -/
theorem Sound.learns {table : InodeTable} (sound : Sound mount state)
    (learns : Learns mount state.table table) :
    Sound mount { state with table } := by
  have same : SameContainers state { state with table } :=
    ⟨rfl, fun id task _ found leaves => ⟨id, task, found, leaves⟩⟩
  refine ⟨?_, sound.locked, sound.uploading, sound.compared, sound.probed⟩
  intro ino new found file
  obtain ⟨old, foundOld, learned⟩ := learns.entry ino new found
  exact ((sound.file ino old foundOld
    (learned.kind_eq.symm.trans file)).learned learned).same same rfl

/-- A repair or a poll goes on or ends. -/
theorem Sound.goesOn {next : Option SizeTask} (sound : Sound mount state)
    (idle : ∀ task, state.tasks id = some task → task.leaves = none)
    (free : ∀ task, next = some task → task.locked = none)
    (compared : ∀ entries prefixes snapshot,
      next = some (.comparing entries prefixes snapshot) →
      ∀ seen ∈ snapshot, seen.cipherSize.isSome = true)
    (probed : ∀ pending probed, next = some (.repairing pending probed) →
      ∀ result ∈ probed, ∀ plaintext, result.2 = some plaintext →
        mount.objects result.1.xetHash = some plaintext) :
    Sound mount (state.setTask id next) := by
  have same : SameContainers state (state.setTask id next) := by
    refine ⟨rfl, ?_⟩
    intro other task left found leaves
    have different : other ≠ id := by
      rintro rfl
      rw [idle task found] at leaves
      cases leaves
    exact ⟨other, task, (Function.update_of_ne different _ _).trans found,
      leaves⟩
  constructor
  · exact fun ino entry found file =>
      (sound.file ino entry found file).same same rfl
  · intro other task ino found locked
    rcases task_of_setTask found with isNext | earlier
    · rw [free task isNext] at locked
      cases locked
    · exact sound.locked other task ino earlier locked
  · exact sound.uploading
  · intro other entries prefixes snapshot found
    rcases task_of_setTask found with isNext | earlier
    · exact compared entries prefixes snapshot isNext
    · exact sound.compared other entries prefixes snapshot earlier
  · intro other pending done found
    rcases task_of_setTask found with isNext | earlier
    · exact probed pending done isNext
    · exact sound.probed other pending done earlier

/-! ## Repairs, polls and revalidations -/

theorem sound_repair (sound : Sound mount before)
    (stepped : before.repair id = some after) : Sound mount after := by
  unfold repair at stepped
  split at stepped <;> rename_i absent
  · obtain rfl := Option.some.inj stepped
    apply sound.goesOn
    · simp [absent]
    · rintro task ⟨⟩
      rfl
    · rintro _ _ _ ⟨⟩
    · rintro _ _ ⟨⟩ result ⟨⟩
  · cases stepped

theorem sound_probe {probe : SizeProbe} {reachable : Bool}
    (sound : Sound mount before)
    (stepped : before.probe mount id probe reachable = some after) :
    Sound mount after := by
  unfold SizeRepairs.probe at stepped
  split at stepped
  · rename_i pending probed running
    split at stepped
    · obtain rfl := Option.some.inj stepped
      apply sound.goesOn
      · simp [running, SizeTask.leaves]
      · rintro task ⟨⟩
        rfl
      · rintro _ _ _ ⟨⟩
      · rintro _ _ ⟨⟩ result listed plaintext isResult
        rcases List.mem_append.mp listed with earlier | new
        · exact sound.probed id pending probed running result earlier plaintext
            isResult
        · obtain rfl := List.mem_singleton.mp new
          exact probePlaintextSizeWith_eq_some isResult
    · cases stepped
  · cases stepped

theorem sound_writeBack (sound : Sound mount before)
    (careful : before.Careful (.writeBack id))
    (stepped : before.writeBack id = some after) : Sound mount after := by
  unfold writeBack at stepped
  split at stepped
  · rename_i probed running
    obtain rfl := Option.some.inj stepped
    have ended : Sound mount (before.setTask id none) := by
      apply sound.goesOn
      · simp [running, SizeTask.leaves]
      · rintro task ⟨⟩
      · rintro _ _ _ ⟨⟩
      · rintro _ _ ⟨⟩
    apply ended.learns
    simp only [Careful, running] at careful
    exact learns_writeBackSizes (sound.probed id [] probed running) careful
  · cases stepped

theorem sound_compare {entries : List TreeEntry} {prefixes : List Path}
    (sound : Sound mount before)
    (stepped : before.compare id entries prefixes = some after) :
    Sound mount after := by
  unfold SizeRepairs.compare at stepped
  split at stepped <;> rename_i absent
  · obtain rfl := Option.some.inj stepped
    apply sound.goesOn
    · simp [absent]
    · rintro task ⟨⟩
      rfl
    · rintro _ _ _ ⟨⟩ seen inSnapshot
      obtain ⟨listed, file⟩ := List.mem_filter.mp inSnapshot
      obtain ⟨ino, found⟩ := InodeTable.mem_values.mp listed
      exact (sound.file ino seen found (by simpa using file)).ciphered
    · rintro _ _ ⟨⟩
  · cases stepped

theorem sound_applyDiff {now : Time} (sound : Sound mount before)
    (stepped : before.applyDiff id now = some after) : Sound mount after := by
  unfold applyDiff at stepped
  split at stepped
  · rename_i entries prefixes snapshot running
    obtain rfl := Option.some.inj stepped
    have ended : Sound mount (before.setTask id none) := by
      apply sound.goesOn
      · simp [running, SizeTask.leaves]
      · rintro task ⟨⟩
      · rintro _ _ _ ⟨⟩
      · rintro _ _ ⟨⟩
    apply ended.learns
    exact learns_applyPollSnapshot
      (sound.compared id entries prefixes snapshot running) entries prefixes
      now before.table
  · cases stepped

theorem sound_revalidate (sound : Sound mount state) (call : Revalidation)
    (answer : HeadAnswer) (reachable : Bool) (now : Time) :
    Sound mount (state.revalidate mount call answer reachable now) :=
  sound.learns (learns_revalidateFile state.table call answer reachable now)

/-! ## Local changes -/

/-- A task on one inode goes on or ends. -/
structure LocalMove (id : Nat) (ino : Ino) (next : Option SizeTask)
    (before after : SizeRepairs) : Prop where
  tasks : after.tasks = Function.update before.tasks id next
  flush : after.flush = before.flush
  own : ∀ task left, before.tasks id = some task → task.leaves = some left →
    left.1 = ino
  isLocal : ∀ task, next = some task → task.isLocal = true
  staged : ∀ other, other ≠ ino → after.staged other = before.staged other
  table : ∀ other, other ≠ ino →
    after.table.get other = before.table.get other
  lockElsewhere : ∀ other, other ≠ ino → after.lock other = before.lock other
  lock : after.lock ino = before.lock ino ∨ before.lock ino = none ∨
    before.lock ino = some (.op id)
  takes : ∀ task other, next = some task → task.locked = some other →
    after.lock other = some (.op id)

theorem LocalMove.reflected {next : Option SizeTask} {other : Ino}
    {size : Nat} (move : LocalMove id ino next before after)
    (different : other ≠ ino) (reflected : before.Reflected other size) :
    after.Reflected other size := by
  constructor
  rw [move.staged other different]
  refine reflected.container.imp_right ?_
  rintro ⟨worker, task, newSize, running, leaves, staged⟩
  have elsewhere : worker ≠ id := by
    rintro rfl
    exact different (move.own task _ running leaves)
  refine ⟨worker, task, newSize, ?_, leaves, staged⟩
  rw [move.tasks, Function.update_of_ne elsewhere]
  exact running

theorem Sound.localMove {next : Option SizeTask} (sound : Sound mount before)
    (move : LocalMove id ino next before after)
    (here : ∀ new, after.table.get ino = some new → new.kind = .file →
      FileSound mount after ino new) : Sound mount after := by
  have lockKept : ∀ other holder, before.lock other = some holder →
      holder ≠ .op id → after.lock other = some holder := by
    intro other holder held foreign
    by_cases same : other = ino
    · subst same
      rcases move.lock with kept | free | mine
      · exact kept.trans held
      · rw [free] at held
        cases held
      · rw [mine] at held
        exact absurd (Option.some.inj held).symm foreign
    · exact (move.lockElsewhere other same).trans held
  constructor
  · intro other new found file
    by_cases same : other = ino
    · subst same
      exact here new found file
    · rw [move.table other same] at found
      have sound := sound.file other new found file
      refine ⟨sound.sized, sound.ciphered, ?_, ?_, ?_⟩
      · intro dirty unflagged
        exact move.reflected same (sound.reflected dirty unflagged)
      · rw [move.flush]
        exact sound.tracked
      · rw [move.flush]
        exact sound.uploaded
  · intro other task target found locked
    rw [move.tasks] at found
    by_cases same : other = id
    · subst same
      rw [Function.update_self] at found
      exact move.takes task target found locked
    · rw [Function.update_of_ne same] at found
      apply lockKept target _ (sound.locked other task target found locked)
      rintro ⟨⟩
      exact same rfl
  · intro other item flushing
    rw [move.flush] at flushing
    apply lockKept other _ (sound.uploading other item flushing)
    rintro ⟨⟩
  · intro other entries prefixes snapshot found
    rw [move.tasks] at found
    rcases task_of_setTask found with isNext | earlier
    · cases move.isLocal _ isNext
    · exact sound.compared other entries prefixes snapshot earlier
  · intro other pending probed found
    rw [move.tasks] at found
    rcases task_of_setTask found with isNext | earlier
    · cases move.isLocal _ isNext
    · exact sound.probed other pending probed earlier

theorem Reflects.reflected {next : Option SizeTask}
    {container : Option StagedHeader} {size : Nat}
    (reflects : before.Reflects id ino container size)
    (tasks : after.tasks = Function.update before.tasks id next)
    (staged : after.staged ino = container) : after.Reflected ino size := by
  constructor
  rw [staged]
  refine reflects.imp_right ?_
  rintro ⟨other, task, newSize, different, running, leaves, isStaged⟩
  refine ⟨other, task, newSize, ?_, leaves, isStaged⟩
  rw [tasks, Function.update_of_ne different]
  exact running

/-- The container of the file changes, not what the inode says of it. -/
theorem FileSound.restaged {old new : InodeEntry}
    (sound : FileSound mount before ino old) (same : SameSizes old new)
    (flush : after.flush ino = before.flush ino)
    (reflected : 0 < new.dirtyGeneration → new.needsSizeProbe = false →
      after.Reflected ino new.size) : FileSound mount after ino new := by
  refine ⟨?_, ?_, reflected, ?_, ?_⟩
  · unfold EncryptedMount.Sized
    rw [same.generation, same.needsSizeProbe, same.xetHash, same.size]
    exact sound.sized
  · rw [same.cipherSize]
    exact sound.ciphered
  · rw [flush, same.generation]
    exact sound.tracked
  · rw [flush, same.generation, same.needsSizeProbe, same.size]
    exact sound.uploaded

/-- A local change is recorded; a flush in progress is overtaken. -/
theorem FileSound.recorded {old new : InodeEntry}
    (sound : FileSound mount before ino old)
    (generation : new.dirtyGeneration = old.setDirty.dirtyGeneration)
    (ciphered : new.cipherSize.isSome = true)
    (flush : after.flush ino = before.flush ino)
    (moves : ∀ running ∈ before.flush ino,
      running.item.dirtyGeneration < u64Max)
    (reflected : new.needsSizeProbe = false → after.Reflected ino new.size) :
    FileSound mount after ino new := by
  have dirty : 0 < new.dirtyGeneration := by
    rw [generation]
    exact InodeEntry.setDirty_pos old
  have passed : ∀ running ∈ after.flush ino,
      0 < running.item.dirtyGeneration ∧
        running.item.dirtyGeneration < new.dirtyGeneration := by
    intro running flushing
    rw [flush] at flushing
    obtain ⟨positive, atMost⟩ := sound.tracked running flushing
    have below := moves running flushing
    rw [generation]
    simp only [InodeEntry.setDirty]
    omega
  refine ⟨?_, ciphered, fun _ => reflected, ?_, ?_⟩
  · intro clean
    omega
  · intro running flushing
    obtain ⟨positive, below⟩ := passed running flushing
    exact ⟨positive, Nat.le_of_lt below⟩
  · intro item hash size flushing current
    have below := (passed _ flushing).2
    simp only [SizeFlush.item] at below
    omega

theorem sound_encryptedEnter {call : EncryptedCall}
    (sound : Sound mount before)
    (stepped : before.encryptedEnter id ino call = some after) :
    Sound mount after := by
  unfold encryptedEnter at stepped
  split at stepped
  · rename_i entry absent free found
    obtain rfl := Option.some.inj stepped
    obtain ⟨task, isTask⟩ : ∃ task : SizeTask, task =
        (if (!call.forceFresh && (before.staged ino).isSome &&
          (entry.isDirty || entry.stagingIsCurrent)) = true then
            .ensured ino call
          else .ensuring ino call
            (if !call.forceFresh && StagingRun.hasObject entry then
              entry.xetHash
            else none)) := ⟨_, rfl⟩
    have local' : task.isLocal = true ∧ task.locked = some ino := by
      rw [isTask]
      split <;> exact ⟨rfl, rfl⟩
    simp only [← isTask]
    have move : LocalMove id ino (some task) before
        ((before.setTask id (some task)).setLock ino (some (.op id))) := by
      refine ⟨rfl, rfl, ?_, ?_, fun _ _ => rfl, fun _ _ => rfl, ?_,
        Or.inr (Or.inl free), ?_⟩
      · intro old left running
        rw [absent] at running
        cases running
      · rintro _ ⟨⟩
        exact local'.1
      · exact fun other different => Function.update_of_ne different _ _
      · rintro _ other ⟨⟩ locked
        rw [local'.2] at locked
        cases locked
        exact Function.update_self _ _ _
    apply sound.localMove move
    intro new got file
    refine (sound.file ino new got file).same ⟨rfl, ?_⟩ rfl
    intro other old left running leaves
    have different : other ≠ id := by
      rintro rfl
      rw [absent] at running
      cases running
    exact ⟨other, old, (Function.update_of_ne different _ _).trans running,
      leaves⟩
  · cases stepped

theorem leaves_of_locked {task : SizeTask} {left : Ino × Nat}
    (locked : task.locked = some ino) (leaves : task.leaves = some left) :
    left.1 = ino := by
  cases task with
  | ensuring target call object => cases leaves
  | ensured target call =>
      cases locked
      cases call with
      | opening truncate =>
          cases truncate with
          | true =>
              cases leaves
              rfl
          | false => cases leaves
      | truncating newSize => cases leaves
  | resized target newSize =>
      cases locked
      cases leaves
      rfl
  | repairing pending probed => cases locked
  | comparing entries prefixes snapshot => cases locked
  | writing target newPlaintext => cases locked

/-- The holder of the lock goes on, or ends and gives it back. -/
theorem localMove_of_holder {old : SizeTask} {next : Option SizeTask}
    (sound : Sound mount before) (running : before.tasks id = some old)
    (locked : old.locked = some ino)
    (tasks : after.tasks = Function.update before.tasks id next)
    (flush : after.flush = before.flush)
    (goesOn : ∀ task, next = some task → task.isLocal = true ∧
      task.locked = some ino ∧ after.lock ino = before.lock ino)
    (staged : ∀ other, other ≠ ino → after.staged other = before.staged other)
    (table : ∀ other, other ≠ ino →
      after.table.get other = before.table.get other)
    (lock : ∀ other, other ≠ ino → after.lock other = before.lock other) :
    LocalMove id ino next before after := by
  have mine := sound.locked id old ino running locked
  refine ⟨tasks, flush, ?_, fun task isNext => (goesOn task isNext).1, staged,
    table, lock, Or.inr (Or.inr mine), ?_⟩
  · intro task left found leaves
    obtain rfl := Option.some.inj (running.symm.trans found)
    exact leaves_of_locked locked leaves
  · intro task other isNext taken
    obtain ⟨_, same, kept⟩ := goesOn task isNext
    rw [same] at taken
    cases taken
    exact kept.trans mine

theorem sound_encryptedFill (sound : Sound mount before)
    (careful : before.Careful (.encryptedFill id))
    (stepped : before.encryptedFill mount id = some after) :
    Sound mount after := by
  unfold encryptedFill at stepped
  split at stepped
  · rename_i ino call hash running
    obtain rfl := Option.some.inj stepped
    simp only [Careful, running] at careful
    have clean := careful.resolve_left (by rintro ⟨_, ⟨⟩⟩)
    refine sound.localMove (localMove_of_holder sound running rfl rfl rfl ?_
      (fun other different => Function.update_of_ne different _ _)
      (fun other different => InodeTable.get_modify_of_ne _ different _)
      fun _ _ => rfl) ?_
    · rintro _ ⟨⟩
      exact ⟨rfl, rfl, rfl⟩
    intro new got file
    rw [InodeTable.get_modify, if_pos rfl] at got
    obtain ⟨old, found, rfl⟩ := Option.map_eq_some_iff.mp got
    refine (sound.file ino old found file).restaged
      ⟨rfl, rfl, rfl, rfl, rfl, rfl⟩ rfl ?_
    intro dirty unflagged
    rcases clean old found with isClean | flagged
    · rw [InodeEntry.isDirty_eq_false_iff] at isClean
      dsimp only at dirty
      omega
    · dsimp only at unflagged
      rw [flagged] at unflagged
      cases unflagged
  · rename_i ino call running
    obtain rfl := Option.some.inj stepped
    simp only [Careful, running] at careful
    refine sound.localMove (localMove_of_holder sound running rfl rfl rfl ?_
      (fun other different => Function.update_of_ne different _ _)
      (fun _ _ => rfl) fun _ _ => rfl) ?_
    · rintro _ ⟨⟩
      exact ⟨rfl, rfl, rfl⟩
    intro entry found file
    refine (sound.file ino entry found file).restaged (.refl entry) rfl ?_
    intro dirty unflagged
    rcases careful with ⟨fresh, _⟩ | clean
    · -- a fresh container is for an open that sets the size to zero
      have opening : call = .opening true := by
        cases call with
        | opening truncate =>
            rw [EncryptedCall.forceFresh] at fresh
            rw [fresh]
        | truncating newSize => cases fresh
      subst opening
      exact ⟨Or.inr ⟨id, _, 0, Function.update_self _ _ _, rfl,
        Function.update_self _ _ _⟩⟩
    · rcases clean entry found with isClean | flagged
      · rw [InodeEntry.isDirty_eq_false_iff] at isClean
        omega
      · rw [flagged] at unflagged
        cases unflagged
  · cases stepped

theorem sound_encryptedTruncate (sound : Sound mount before)
    (stepped : before.encryptedTruncate id = some after) :
    Sound mount after := by
  unfold encryptedTruncate at stepped
  split at stepped
  · rename_i ino newSize running
    split at stepped
    · obtain rfl := Option.some.inj stepped
      refine sound.localMove (localMove_of_holder sound running rfl rfl rfl ?_
        (fun other different => Function.update_of_ne different _ _)
        (fun _ _ => rfl) fun _ _ => rfl) ?_
      · rintro _ ⟨⟩
        exact ⟨rfl, rfl, rfl⟩
      intro entry found file
      refine (sound.file ino entry found file).restaged (.refl entry) rfl ?_
      intro _ _
      exact ⟨Or.inr ⟨id, _, newSize, Function.update_self _ _ _, rfl,
        Function.update_self _ _ _⟩⟩
    · cases stepped
  · cases stepped

/-- The change of an inode that a task records. -/
structure Recorded (size : Nat) (old new : InodeEntry) : Prop where
  kind : new.kind = old.kind
  generation : new.dirtyGeneration = old.setDirty.dirtyGeneration
  size : new.size = size
  cipherSize : old.cipherSize.isSome = true → new.cipherSize.isSome = true
  needsSizeProbe : new.needsSizeProbe = old.needsSizeProbe

/-- The task on the inode is over, and the inode has what it recorded. -/
theorem soundFile_of_recorded {next : Option SizeTask} {old new : InodeEntry}
    {size : InodeEntry → Nat} (sound : Sound mount before)
    (move : LocalMove id ino next before after)
    (staged : after.staged = before.staged)
    (fits : before.RecordFits id ino size)
    (found : before.table.get ino = some old)
    (recorded : Recorded (size old) old new) (file : new.kind = .file) :
    FileSound mount after ino new := by
  have soundFile := sound.file ino old found (recorded.kind.symm.trans file)
  obtain ⟨reflects, moves⟩ := fits old found
  apply soundFile.recorded recorded.generation
    (recorded.cipherSize soundFile.ciphered) (by rw [move.flush]) moves
  intro unflagged
  rw [recorded.needsSizeProbe] at unflagged
  rw [recorded.size]
  exact (reflects unflagged).reflected move.tasks (by rw [staged])

/-- The holder of the lock records its change. -/
theorem sound_finish {old : SizeTask} {change : InodeEntry → InodeEntry}
    (sound : Sound mount before) (running : before.tasks id = some old)
    (locked : old.locked = some ino) {size : InodeEntry → Nat}
    (fits : before.RecordFits id ino size)
    (recorded : ∀ entry, Recorded (size entry) entry (change entry)) :
    Sound mount (before.finish id ino change) := by
  have move : LocalMove id ino none before (before.finish id ino change) :=
    localMove_of_holder sound running locked rfl rfl (by rintro _ ⟨⟩)
      (fun _ _ => rfl)
      (fun other different => InodeTable.get_modify_of_ne _ different _)
      fun other different => Function.update_of_ne different _ _
  apply sound.localMove move
  intro new got file
  simp only [finish] at got
  rw [InodeTable.get_modify, if_pos rfl] at got
  obtain ⟨entry, found, rfl⟩ := Option.map_eq_some_iff.mp got
  exact soundFile_of_recorded sound move rfl fits found (recorded entry) file

theorem sound_encryptedDone {now : Time} (sound : Sound mount before)
    (careful : before.Careful (.encryptedDone id now))
    (stepped : before.encryptedDone id now = some after) :
    Sound mount after := by
  unfold encryptedDone at stepped
  split at stepped
  · rename_i ino truncate running
    obtain rfl := Option.some.inj stepped
    simp only [Careful, running] at careful
    apply sound_finish sound running rfl careful
    intro entry
    refine ⟨rfl, rfl, rfl, ?_, rfl⟩
    intro ciphered
    cases truncate with
    | true => rfl
    | false => exact ciphered
  · rename_i ino newSize running
    split at stepped <;> rename_i fits
    · obtain rfl := Option.some.inj stepped
      simp only [Careful, running] at careful
      apply sound_finish sound running rfl careful
      intro entry
      exact ⟨rfl, rfl, rfl, fun _ => fits, rfl⟩
    · cases stepped
  · cases stepped

/-! ## Writes -/

/-- A task without the lock begins or ends. -/
theorem localMove_of_writing {next : Option SizeTask}
    (own : ∀ task left, before.tasks id = some task →
      task.leaves = some left → left.1 = ino)
    (tasks : after.tasks = Function.update before.tasks id next)
    (flush : after.flush = before.flush) (lock : after.lock = before.lock)
    (goesOn : ∀ task, next = some task → task.isLocal = true ∧
      task.locked = none)
    (staged : ∀ other, other ≠ ino → after.staged other = before.staged other)
    (table : ∀ other, other ≠ ino →
      after.table.get other = before.table.get other) :
    LocalMove id ino next before after := by
  refine ⟨tasks, flush, own, fun task isNext => (goesOn task isNext).1, staged,
    table, fun other _ => by rw [lock], Or.inl (by rw [lock]), ?_⟩
  intro task other isNext taken
  rw [(goesOn task isNext).2] at taken
  cases taken

theorem sound_encryptedWrite {newPlaintext : Nat} (sound : Sound mount before)
    (stepped : before.encryptedWrite id ino newPlaintext = some after) :
    Sound mount after := by
  unfold encryptedWrite at stepped
  split at stepped
  · rename_i absent _
    obtain rfl := Option.some.inj stepped
    refine sound.localMove (localMove_of_writing ?_ rfl rfl rfl ?_
      (fun other different => Function.update_of_ne different _ _)
      fun _ _ => rfl) ?_
    · intro task left running
      rw [absent] at running
      cases running
    · rintro _ ⟨⟩
      exact ⟨rfl, rfl⟩
    intro entry found file
    refine (sound.file ino entry found file).restaged (.refl entry) rfl ?_
    intro _ _
    exact ⟨Or.inr ⟨id, _, newPlaintext, Function.update_self _ _ _, rfl,
      Function.update_self _ _ _⟩⟩
  · cases stepped

theorem own_of_writing {newPlaintext : Nat}
    (running : state.tasks id = some (.writing ino newPlaintext)) :
    ∀ task left, state.tasks id = some task →
      task.leaves = some left → left.1 = ino := by
  intro task left found leaves
  obtain rfl := Option.some.inj (running.symm.trans found)
  cases leaves
  rfl

theorem sound_writeDone (sound : Sound mount before)
    (careful : before.Careful (.writeDone id))
    (stepped : before.writeDone id = some after) : Sound mount after := by
  unfold writeDone at stepped
  split at stepped
  · rename_i ino newPlaintext running
    obtain rfl := Option.some.inj stepped
    simp only [Careful, running] at careful
    have move : LocalMove id ino none before { before.setTask id none with
        table := before.table.modify ino fun entry =>
          { entry with size := newPlaintext }.setDirty } :=
      localMove_of_writing (own_of_writing running) rfl rfl rfl
        (by rintro _ ⟨⟩) (fun _ _ => rfl)
        fun other different => InodeTable.get_modify_of_ne _ different _
    apply sound.localMove move
    intro new got file
    rw [InodeTable.get_modify, if_pos rfl] at got
    obtain ⟨entry, found, rfl⟩ := Option.map_eq_some_iff.mp got
    exact soundFile_of_recorded sound move rfl careful found
      ⟨rfl, rfl, rfl, fun ciphered => ciphered, rfl⟩ file
  · cases stepped

/-- A failed change leaves the inode as it is. -/
theorem sound_left {next : Option SizeTask} {left : Option StagedHeader}
    (sound : Sound mount before) (move : LocalMove id ino next before after)
    (table : after.table = before.table)
    (staged : after.staged ino = left)
    (fits : before.FailFits id ino left) : Sound mount after := by
  apply sound.localMove move
  intro entry found file
  rw [table] at found
  apply (sound.file ino entry found file).restaged (.refl entry)
    (by rw [move.flush])
  intro dirty unflagged
  exact (fits entry found (InodeEntry.isDirty_iff.mpr dirty)
    unflagged).reflected move.tasks staged

theorem sound_fail {left : Option StagedHeader} (sound : Sound mount before)
    (careful : before.Careful (.fail id left))
    (stepped : before.fail id left = some after) : Sound mount after := by
  have holder : ∀ ino old, before.tasks id = some old →
      old.locked = some ino → before.FailFits id ino left →
      Sound mount
        (((before.setTask id none).setLock ino none).setStaged ino left) := by
    intro ino old running locked fits
    exact sound_left sound (localMove_of_holder sound running locked rfl rfl
      (by rintro _ ⟨⟩)
      (fun other different => Function.update_of_ne different _ _)
      (fun _ _ => rfl)
      fun other different => Function.update_of_ne different _ _) rfl
      (Function.update_self _ _ _) fits
  unfold fail at stepped
  split at stepped
  · rename_i ino call object running
    obtain rfl := Option.some.inj stepped
    simp only [Careful, running] at careful
    exact holder ino _ running rfl careful
  · rename_i ino call running
    obtain rfl := Option.some.inj stepped
    simp only [Careful, running] at careful
    exact holder ino _ running rfl careful
  · rename_i ino newSize running
    obtain rfl := Option.some.inj stepped
    simp only [Careful, running] at careful
    exact holder ino _ running rfl careful
  · rename_i ino newPlaintext running
    obtain rfl := Option.some.inj stepped
    simp only [Careful, running] at careful
    exact sound_left sound (localMove_of_writing (own_of_writing running) rfl
      rfl rfl (by rintro _ ⟨⟩)
      (fun other different => Function.update_of_ne different _ _)
      fun _ _ => rfl) rfl (Function.update_self _ _ _) careful
  · cases stepped

end

end SizeRepairs

end HfMount.Vfs
