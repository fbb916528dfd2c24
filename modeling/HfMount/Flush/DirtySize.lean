import HfMount.Flush.StagedSizes

/-!
# The size of a dirty file over whole runs

Flushes, collections, failed operations and updates from the remote keep the
sizes level as well.  What breaks them is a write that meets a size which the
remote has put into a clean inode while its staging file stayed as it was.
-/

namespace HfMount.Flush

open Inode Transition

namespace StagedFile

section

variable {store : ContentStore} {before after file : StagedFile} {id : Nat}

/-! ## Flushes -/

theorem Leveled.flushes (leveled : Leveled file) (phase : FlushPhase)
    (lock : Option LockHolder) (remote : Option Bytes)
    (uploaded : ∀ item content, phase.item = some item →
      phase.content = some content → file.Uploaded item content) :
    Leveled { file with flush := phase, lock, remote } := by
  have same : file.SameLevels { file with flush := phase, lock, remote } :=
    ⟨rfl, fun _ => Iff.rfl, rfl, rfl, fun cutting => cutting⟩
  apply leveled.same same
  · exact fun other op found => Or.inl ⟨other, found⟩
  · exact fun item content after => leveled.flushed item content
      (uploaded item content after.item after.content)

/-- An upload that a write has disturbed reads at least up to the size and at
most up to the end of the file. -/
def ReadFits (file : StagedFile) (content : Bytes) : Prop :=
  ∀ item, file.flush = .uploading item false →
    item.dirtyGeneration = file.entry.dirtyGeneration →
    file.entry.size ≤ content.length ∧
      ∀ length, file.stagedLength = some length → content.length ≤ length

theorem leveled_uploadOk {content : Bytes} (leveled : Leveled before)
    (tracked : before.Tracked) (reads : before.ReadFits content)
    (stepped : before.uploadOk content = some after) : Leveled after := by
  unfold uploadOk at stepped
  split at stepped
  · rename_i item undisturbed staged uploading found
    split at stepped <;> rename_i read
    · cases stepped
    obtain rfl := Option.some.inj stepped
    have same : before.SameLevels
        { before with flush := .uploaded item content } :=
      ⟨rfl, fun _ => Iff.rfl, rfl, rfl, fun cutting => cutting⟩
    apply leveled.same same
    · exact fun other op found => Or.inl ⟨other, found⟩
    rintro _ _ ⟨⟨⟩, ⟨⟩⟩ current
    have positive := (tracked.snapshot item (by rw [uploading]; rfl)).1
    refine (leveled.dirty (current ▸ positive)).imp_left fun level => ?_
    cases undisturbed with
    | true =>
        have whole : content = before.disk staged := by simpa using read
        have isLength : before.stagedLength = some content.length := by
          rw [stagedLength, found, whole]
          rfl
        apply level.between
        · obtain ⟨length, isReach, inside, _⟩ := level.reach
          rw [isLength] at isReach
          rw [Option.some.inj isReach]
          exact inside
        · intro length isReach
          rw [isLength] at isReach
          exact Nat.le_of_eq (Option.some.inj isReach)
    | false =>
        obtain ⟨least, most⟩ := reads item uploading current
        exact level.between least most
  · cases stepped

theorem not_cutting_of_writing (leveled : Leveled file)
    (writing : file.Writing) : ¬ file.Cutting := by
  rintro ⟨id, op, found, cuts⟩
  exact (leveled.ops id op found).alone (FileOp.rewrites_of_cuts cuts) writing

theorem not_cutting_of_keeps (locked : StagingCache.Locked file) {op : FileOp}
    (found : file.op id = some op) (keeps : op.keeps = true) :
    ¬ file.Cutting := by
  rintro ⟨other, cut, foundCut, cuts⟩
  have mine := locked.op id op found (FileOp.holdsLock_of_keeps keeps)
  have held := locked.op other cut foundCut
    (FileOp.holdsLock_of_rewrites (FileOp.rewrites_of_cuts cuts))
  rw [mine] at held
  cases held
  obtain rfl := Option.some.inj (found.symm.trans foundCut)
  rw [FileOp.not_cuts_of_keeps keeps] at cuts
  cases cuts

/-- A commit that lands sets the size to the length of what it has uploaded. -/
theorem Leveled.applied (leveled : Leveled file)
    (locked : StagingCache.Locked file) (plain : file.entry.cipherSize = none)
    {item : FlushItem} {content : Bytes} (uploaded : file.Uploaded item content)
    (now : Time) : Leveled (file.applied store item content now) := by
  unfold StagedFile.applied
  by_cases lands : file.entry.dirtyGeneration = item.dirtyGeneration
  · rw [InodeEntry.applyCommit_of_eq lands]
    have level := leveled.flushed item content uploaded lands.symm
    have size : (file.entry.recordCommit (store.hash content)
        content.length).size = content.length := by
      simp [InodeEntry.recordCommit, plain]
    constructor
    · intro other op found
      have relies := leveled.ops other op found
      refine ⟨relies.alone, ?_, relies.emptied, fun _ _ _ => rfl,
        relies.staged⟩
      intro keeps
      dsimp only
      rw [size]
      exact (level.resolve_right (not_cutting_of_keeps locked found keeps)).same
        rfl fun _ => Iff.rfl
    · rintro ⟨⟩
    · intro writing
      dsimp only
      rw [size]
      exact (level.resolve_right (not_cutting_of_writing leveled writing)).same
        rfl fun _ => Iff.rfl
    · rintro _ _ ⟨⟨⟩, _⟩
  · rw [InodeEntry.applyCommit_of_ne lands]
    refine leveled.same
      ⟨rfl, fun _ => Iff.rfl, rfl, rfl, fun cutting => cutting⟩ ?_ ?_
    · exact fun other op found => Or.inl ⟨other, found⟩
    · rintro _ _ ⟨⟨⟩, _⟩

/-! ## Collections, failures, updates from the remote -/

theorem leveled_gcOne (leveled : Leveled before)
    (lockedAfter : StagingCache.Locked after) (tracked : after.Tracked)
    (fits : before.entry.isDirty = true ∨ ¬ before.Writing)
    (stepped : before.gcOne = some after) : Leveled after := by
  unfold gcOne at stepped
  split at stepped <;> rename_i free
  · split at stepped <;> rename_i dirty <;> obtain rfl := Option.some.inj stepped
    · exact leveled
    · apply leveled_of_clean tracked (opsFit_of_unlocked lockedAfter free)
      · exact InodeEntry.isDirty_eq_false_iff.mp (by simpa using dirty)
      · intro writing
        exact absurd writing (fits.resolve_left dirty)
  · cases stepped

/-- An operation that holds the lock gives up; it has not cut the file of a
dirty inode. -/
theorem Leveled.finishes {op : FileOp} (leveled : Leveled file)
    (locked : StagingCache.Locked (file.finishOp id))
    (tracked : (file.finishOp id).Tracked) (found : file.op id = some op)
    (holds : op.holdsLock = true)
    (harmless : op.cuts = false ∨ file.entry.dirtyGeneration = 0) :
    Leveled (file.finishOp id) := by
  have ops : (file.finishOp id).op = Function.update file.op id none := rfl
  have old : ∀ newEnd changed,
      file.op id ≠ some (.writing newEnd changed) := by
    intro newEnd changed writing
    obtain rfl := Option.some.inj (found.symm.trans writing)
    cases holds
  rcases harmless with uncut | clean
  · apply leveled.same
    · apply sameLevels_replace ops rfl rfl rfl old (by rintro _ _ ⟨⟩)
      intro other foundOther cuts
      obtain rfl := Option.some.inj (found.symm.trans foundOther)
      rw [uncut] at cuts
      cases cuts
    · exact ops_of_replace ops (by rintro _ ⟨⟩)
    · exact fun item content uploaded =>
        leveled.flushed item content ⟨uploaded.item, uploaded.content⟩
  · apply leveled_of_clean tracked (opsFit_of_unlocked locked rfl) clean
    have ends : ∀ newEnd, (file.finishOp id).PendingEnd newEnd ↔
        file.PendingEnd newEnd :=
      fun newEnd => pendingEnd_replace ops old (by rintro _ _ ⟨⟩)
    intro writing
    exact (leveled.writing ((exists_congr ends).mp writing)).same rfl ends

/-- A download that fails may leave anything in the staging file of a clean
inode that is not being written. -/
theorem leveled_of_leftover {leftover : Bytes}
    (locked : StagingCache.Locked after) (tracked : after.Tracked)
    (free : after.lock = none)
    (entry : after.entry = (before.placeFile false leftover).entry)
    (clean : before.entry.dirtyGeneration = 0)
    (ops : after.op = Function.update before.op id none)
    (old : ∀ newEnd changed, before.op id ≠ some (.writing newEnd changed))
    (alone : ¬ before.Writing) : Leveled after := by
  have still := not_writing_of_replace ops old (by rintro _ _ ⟨⟩) alone
  apply leveled_of_clean tracked (opsFit_of_unlocked locked free)
  · rw [entry, placeFile_entry]
    exact clean
  · exact fun writing => absurd writing still

/-- The remote may change the size of a clean inode that is neither written
nor opened for writing. -/
def Resizable (file : StagedFile) (size : Nat) : Prop :=
  file.entry.isDirty = true ∨ size = file.entry.size ∨
    ¬ file.Writing ∧ ∀ id op, file.op id = some op → op.keeps = false

/-- A dirty inode keeps its size, a clean one takes the new one. -/
theorem Resizable.update {size : Nat} {entry : InodeEntry}
    (fits : file.Resizable size)
    (generation : entry.dirtyGeneration = file.entry.dirtyGeneration)
    (kept : file.entry.isDirty = true → entry.size = file.entry.size)
    (taken : file.entry.isDirty = false → entry.size = size) :
    entry.size = file.entry.size ∨ entry.dirtyGeneration = 0 ∧
      ¬ file.Writing ∧ ∀ id op, file.op id = some op → op.keeps = false := by
  cases dirty : file.entry.isDirty with
  | true => exact Or.inl (kept dirty)
  | false =>
      rcases fits with isDirty | same | free
      · rw [dirty] at isDirty
        cases isDirty
      · exact Or.inl ((taken dirty).trans same)
      · rw [generation]
        exact Or.inr ⟨InodeEntry.isDirty_eq_false_iff.mp dirty, free⟩

theorem Leveled.resized (leveled : Leveled file) {entry : InodeEntry}
    (tracked : StagedFile.Tracked { file with entry })
    (generation : entry.dirtyGeneration = file.entry.dirtyGeneration)
    (size : entry.size = file.entry.size ∨ entry.dirtyGeneration = 0 ∧
      ¬ file.Writing ∧ ∀ id op, file.op id = some op → op.keeps = false) :
    Leveled { file with entry } := by
  rcases size with same | ⟨clean, alone, unkept⟩
  · refine leveled.same
      ⟨rfl, fun _ => Iff.rfl, same, generation, fun cutting => cutting⟩ ?_ ?_
    · exact fun other op found => Or.inl ⟨other, found⟩
    · exact fun item content uploaded =>
        leveled.flushed item content ⟨uploaded.item, uploaded.content⟩
  · apply leveled_of_clean tracked _ clean fun writing => absurd writing alone
    intro other op found
    have relies := leveled.ops other op found
    refine ⟨relies.alone, ?_, relies.emptied, fun _ _ _ => clean,
      relies.staged⟩
    intro keeps
    rw [unkept other op found] at keeps
    cases keeps

end

end StagedFile

namespace StagingCache

/-- No write meets a size that is not the length of the staging file, and the
staging file of a file that is being written is not replaced. -/
def SizesFit (cache : StagingCache) : CacheEvent → Prop
  | .file (.openEnter id) =>
      (∀ hash size truncate, cache.file.op id =
        some (.opening hash size truncate) →
          cache.file.canReuseStaging truncate = true) ∨ ¬ cache.file.Writing
  | .file (.openFill id _) =>
      ∀ hash size, cache.file.op id = some (.preparing hash size false) →
        cache.file.entry.xetHash.getD [] = hash ∧ cache.file.entry.size = size
  | .file (.setattrEnter _) => ¬ cache.file.Writing
  | .file (.pwrite _ handle offset data) =>
      (∀ id op, cache.file.op id = some op → op.rewrites = false) ∧
        cache.file.SizeKnown ∧ cache.file.WriteReaches handle offset data
  | .file .gcOne => cache.file.entry.isDirty = true ∨ ¬ cache.file.Writing
  | .file (.uploadOk content) => cache.file.ReadFits content
  | .fail _ leftover =>
      leftover.isSome = true ∨ cache.placed.isSome = true →
        cache.file.entry.dirtyGeneration = 0
  | .updateRemote _ _ size _ _ => cache.file.Resizable size
  | .mergeRemote _ size _ =>
      cache.file.Resizable (size.getD cache.file.entry.size)
  | _ => True

section

variable {store : ContentStore}

theorem leveled_file {before after : StagedFile} {event : FileEvent}
    {placed : Option (Option Hash)} (leveled : before.Leveled)
    (honest : Honest .plaintext store ⟨before, placed⟩)
    (plain : before.entry.cipherSize = none)
    (sized : StagedFile.Sized store before.entry)
    (locked : Locked after) (tracked : after.Tracked)
    (moves : before.GenerationMoves event)
    (fits : SizesFit ⟨before, placed⟩ (.file event))
    (stepped : before.step store event = some after) : after.Leveled := by
  have tracksBefore := honest.tracked
  cases event with
  | openStart id truncate =>
      simp only [StagedFile.step, StagedFile.openStart] at stepped
      split at stepped <;> rename_i absent
      · obtain rfl := Option.some.inj stepped
        apply leveled.waiting
        · simp [absent]
        · rintro op ⟨⟩
          exact ⟨rfl, by rintro _ _ ⟨⟩⟩
      · cases stepped
  | openEnter id =>
      exact StagedFile.leveled_openEnter leveled honest.locked honest.cached
        sized fits stepped
  | openFill id replaced =>
      exact StagedFile.leveled_openFill leveled honest.locked locked tracked
        sized fits stepped
  | openMark id => exact StagedFile.leveled_openMark leveled stepped
  | openDone id now =>
      exact StagedFile.leveled_openDone leveled locked tracksBefore moves
        stepped
  | setattr id newSize =>
      simp only [StagedFile.step, StagedFile.setattr] at stepped
      split at stepped <;> rename_i absent
      · obtain rfl := Option.some.inj stepped
        apply leveled.waiting
        · simp [absent]
        · rintro op ⟨⟩
          exact ⟨rfl, by rintro _ _ ⟨⟩⟩
      · cases stepped
  | setattrEnter id =>
      exact StagedFile.leveled_setattrEnter leveled honest.locked locked
        tracked fits stepped
  | setattrApply id now =>
      exact StagedFile.leveled_setattrApply leveled locked tracksBefore moves
        stepped
  | pwrite id handle offset data =>
      obtain ⟨calm, known, reaches⟩ := fits
      exact StagedFile.leveled_pwrite leveled calm known reaches stepped
  | writeDone id =>
      exact StagedFile.leveled_writeDone leveled tracksBefore moves stepped
  | gcOne => exact StagedFile.leveled_gcOne leveled locked tracked fits stepped
  | flushLock =>
      simp only [StagedFile.step, StagedFile.flushLock] at stepped
      split at stepped
      · obtain rfl := Option.some.inj stepped
        exact leveled.flushes .locked _ _ (by rintro _ _ ⟨⟩)
      · cases stepped
  | flushSnapshot =>
      simp only [StagedFile.step, StagedFile.flushSnapshot] at stepped
      split at stepped
      · split at stepped <;> obtain rfl := Option.some.inj stepped
        · exact leveled.flushes (.uploading _ _) _ _ (by rintro _ _ _ ⟨⟩)
        · exact leveled.flushes .idle _ _ (by rintro _ _ ⟨⟩)
      · cases stepped
  | uploadOk content =>
      exact StagedFile.leveled_uploadOk leveled tracksBefore fits stepped
  | uploadFail =>
      simp only [StagedFile.step, StagedFile.uploadFail] at stepped
      split at stepped
      · obtain rfl := Option.some.inj stepped
        exact leveled.flushes .idle _ _ (by rintro _ _ ⟨⟩)
      · cases stepped
  | flushUnlock =>
      simp only [StagedFile.step, StagedFile.flushUnlock] at stepped
      split at stepped <;> rename_i phase
      · obtain rfl := Option.some.inj stepped
        apply leveled.flushes (.released _ _)
        rintro _ _ ⟨⟩ ⟨⟩
        exact ⟨by rw [phase]; rfl, by rw [phase]; rfl⟩
      · cases stepped
  | flushUnchanged now =>
      simp only [StagedFile.step, StagedFile.flushUnchanged] at stepped
      split at stepped <;> rename_i phase
      · split at stepped
        · obtain rfl := Option.some.inj stepped
          exact leveled.applied honest.locked plain
            ⟨by rw [phase]; rfl, by rw [phase]; rfl⟩ now
        · cases stepped
      · cases stepped
  | hubOk =>
      simp only [StagedFile.step, StagedFile.hubOk] at stepped
      split at stepped <;> rename_i phase
      · split at stepped
        · cases stepped
        obtain rfl := Option.some.inj stepped
        apply leveled.flushes (.committed _ _)
        rintro _ _ ⟨⟩ ⟨⟩
        exact ⟨by rw [phase]; rfl, by rw [phase]; rfl⟩
      · cases stepped
  | hubFail =>
      simp only [StagedFile.step, StagedFile.hubFail] at stepped
      split at stepped
      · split at stepped
        · cases stepped
        obtain rfl := Option.some.inj stepped
        exact leveled.flushes .idle _ _ (by rintro _ _ ⟨⟩)
      · cases stepped
  | applyCommit now =>
      simp only [StagedFile.step, StagedFile.applyCommit] at stepped
      split at stepped <;> rename_i phase
      · obtain rfl := Option.some.inj stepped
        exact leveled.applied honest.locked plain
          ⟨by rw [phase]; rfl, by rw [phase]; rfl⟩ now
      · cases stepped

theorem leveled_fail {before after : StagingCache} {id : Nat}
    {leftover : Option Bytes} (leveled : before.file.Leveled)
    (honest : Honest .plaintext store before)
    (locked : Locked after.file) (tracked : after.file.Tracked)
    (fits : before.SizesFit (.fail id leftover))
    (stepped : before.step .plaintext store (.fail id leftover) = some after) :
    after.file.Leveled := by
  -- what has not been placed has not been cut either
  have harmless : ∀ op, before.file.op id = some op → op.holdsLock = true →
      op.cuts = false ∨ before.file.entry.dirtyGeneration = 0 := by
    intro op found holds
    cases placed : before.placed with
    | none =>
        left
        have unchanged := honest.right.unchanged placed found holds
        cases cuts : op.cuts with
        | false => rfl
        | true =>
            rw [FileOp.changed_of_cuts cuts] at unchanged
            cases unchanged
    | some source => exact Or.inr (fits (Or.inr (by rw [placed]; rfl)))
  simp only [step] at stepped
  split at stepped
  · rename_i preparing
    obtain rfl := Option.some.inj stepped
    cases leftover with
    | none => exact leveled.finishes locked tracked preparing rfl (Or.inl rfl)
    | some content =>
        have alone := (leveled.ops id _ preparing).alone rfl
        refine StagedFile.leveled_of_leftover locked tracked rfl rfl
          (fits (Or.inl rfl)) (placed_op before.file false content id none)
          ?_ alone
        intro newEnd changed writing
        rw [preparing] at writing
        cases writing
  · rename_i filled
    split at stepped
    · obtain rfl := Option.some.inj stepped
      exact leveled.finishes locked tracked filled rfl (harmless _ filled rfl)
    · cases stepped
  · rename_i prepared
    split at stepped
    · obtain rfl := Option.some.inj stepped
      exact leveled.finishes locked tracked prepared rfl
        (harmless _ prepared rfl)
    · cases stepped
  · rename_i ready
    split at stepped
    · obtain rfl := Option.some.inj stepped
      exact leveled.finishes locked tracked ready rfl (harmless _ ready rfl)
    · cases stepped
  · cases stepped

theorem leveled_setattrFails {before after : StagingCache} {id : Nat}
    {leftover : Bytes} (leveled : before.file.Leveled)
    (honest : Honest .plaintext store before)
    (locked : Locked after.file) (tracked : after.file.Tracked)
    (stepped : before.step .plaintext store (.setattrFails id leftover) =
      some after) : after.file.Leveled := by
  simp only [step] at stepped
  split at stepped
  · rename_i truncating free absent
    obtain rfl := Option.some.inj stepped
    refine StagedFile.leveled_of_leftover locked tracked ?_ rfl
      (leveled.clean_of_unstaged honest.locked free absent)
      (placed_op before.file false leftover id none) ?_ ?_
    · exact (placeFile_lock before.file false leftover).trans free
    · intro newEnd changed writing
      rw [truncating] at writing
      cases writing
    · intro writing
      obtain ⟨staged, found⟩ := (leveled.writing writing).staged
      rw [absent] at found
      cases found
  · cases stepped

theorem step_leveled {before after : StagingCache} {event : CacheEvent}
    (leveled : before.file.Leveled) (honest : Honest .plaintext store before)
    (plain : Plain store before) (honestAfter : Honest .plaintext store after)
    (fits : before.Fits event) (sizes : before.SizesFit event)
    (stepped : before.step .plaintext store event = some after) :
    after.file.Leveled := by
  cases event with
  | file event =>
      simp only [step] at stepped
      split at stepped
      · obtain ⟨file, moved, rfl⟩ := Option.map_eq_some_iff.mp stepped
        exact leveled_file leveled honest plain.plain plain.sized
          honestAfter.locked honestAfter.tracked fits sizes moved
      · cases stepped
  | encryptedEnter id => cases stepped
  | encryptedFill id replaced => cases stepped
  | encryptedMark id => cases stepped
  | encryptedDone id now => cases stepped
  | encryptedWrite id newEnd content => cases stepped
  | cancel id =>
      have cancelled : ∀ op, before.file.op id = some op → op.Waits →
          (before.file.setOp id none).Leveled := by
        intro op found waits
        apply leveled.waiting
        · intro other foundOther
          obtain rfl := Option.some.inj (found.symm.trans foundOther)
          exact waits
        · rintro _ ⟨⟩
      simp only [step] at stepped
      split at stepped
      · rename_i opening
        obtain rfl := Option.some.inj stepped
        exact cancelled _ opening ⟨rfl, by rintro _ _ ⟨⟩⟩
      · rename_i truncating
        obtain rfl := Option.some.inj stepped
        exact cancelled _ truncating ⟨rfl, by rintro _ _ ⟨⟩⟩
      · cases stepped
  | fail id leftover =>
      exact leveled_fail leveled honest honestAfter.locked honestAfter.tracked
        sizes stepped
  | setattrFails id leftover =>
      exact leveled_setattrFails leveled honest honestAfter.locked
        honestAfter.tracked stepped
  | updateRemote hash etag size mtime cipherSize =>
      simp only [step] at stepped
      split at stepped
      · cases stepped
      obtain rfl := Option.some.inj stepped
      apply leveled.resized honestAfter.tracked
        (updateRemote_generation _ _ _ _ _ _)
      apply sizes.update (updateRemote_generation _ _ _ _ _ _)
      · intro dirty
        rw [InodeEntry.updateRemote, if_pos dirty]
      · intro clean
        simp only [InodeEntry.updateRemote, clean, Bool.false_eq_true, if_false]
  | mergeRemote hash size mtime =>
      simp only [step] at stepped
      obtain rfl := Option.some.inj stepped
      apply leveled.resized honestAfter.tracked (mergeRemote_generation _ _ _ _)
      apply sizes.update (mergeRemote_generation _ _ _ _)
      · intro dirty
        rw [InodeEntry.mergeRemote, if_pos dirty]
      · intro clean
        simp only [InodeEntry.mergeRemote, clean, Bool.false_eq_true, if_false]

/-- A dirty inode at which nothing is in progress reports the length of its
staging file. -/
def SizeIsStaged (file : StagedFile) : Prop :=
  file.entry.isDirty = true → (∀ id, file.op id = none) →
    file.stagedLength = some file.entry.size

theorem sizeIsStaged_of_leveled {file : StagedFile}
    (leveled : file.Leveled) : SizeIsStaged file := by
  intro dirty idle
  have alone : ¬ file.Writing := by
    rintro ⟨newEnd, id, changed, found⟩
    rw [idle id] at found
    cases found
  rw [← StagedFile.levelAt_iff_of_not_writing alone]
  apply (leveled.dirty (InodeEntry.isDirty_iff.mp dirty)).resolve_right
  rintro ⟨id, op, found, _⟩
  rw [idle id] at found
  cases found

theorem leveled_initial {cache : StagingCache} (initial : cache.Initial)
    (created : cache.file.entry.isDirty = true →
      cache.file.stagedLength = some cache.file.entry.size) :
    cache.file.Leveled := by
  have alone : ¬ cache.file.Writing := by
    rintro ⟨newEnd, id, changed, found⟩
    rw [initial.noOps id] at found
    cases found
  constructor
  · intro id op found
    rw [initial.noOps id] at found
    cases found
  · intro dirty
    left
    rw [StagedFile.levelAt_iff_of_not_writing alone]
    exact created (InodeEntry.isDirty_iff.mpr dirty)
  · exact fun writing => absurd writing alone
  · rintro item content ⟨running, _⟩
    rw [initial.idle] at running
    cases running

/-- In every run whose steps meet the condition, a dirty inode at which nothing
is in progress reports the length of its staging file. -/
theorem size_is_staged_of_fits (named : ∀ content, store.hash content ≠ [])
    {initial final : StagingCache} {events : List CacheEvent}
    (start : initial.Initial) (plain : Plain store initial)
    (created : initial.file.entry.isDirty = true →
      initial.file.stagedLength = some initial.file.entry.size)
    (run : exec (step .plaintext store) initial events = some final)
    (fits : AllSteps (step .plaintext store)
      (fun cache event => cache.Fits event ∧ cache.MetadataFits store event ∧
        cache.SizesFit event) initial events) :
    SizeIsStaged final.file := by
  have preserved : ∀ before event after,
      (Honest .plaintext store before ∧ Plain store before ∧
        before.file.Leveled) →
      before.Fits event ∧ before.MetadataFits store event ∧
        before.SizesFit event →
      before.step .plaintext store event = some after →
      Honest .plaintext store after ∧ Plain store after ∧
        after.file.Leveled := by
    rintro before event after ⟨honest, plain, leveled⟩ ⟨fits, metadata, sizes⟩
      stepped
    have honestAfter := step_honest named before event after honest fits stepped
    exact ⟨honestAfter, step_plain named plain metadata stepped,
      step_leveled leveled honest plain honestAfter fits sizes stepped⟩
  have reached := exec_invariant preserved
    ⟨honest_initial start, plain, leveled_initial start created⟩ fits run
  exact sizeIsStaged_of_leveled reached.2.2

end

/-- The file is opened, overwritten and flushed; the poll brings an object of
the same size, and the handle writes on. -/
def writtenOn : List CacheEvent :=
  [.file (.openStart 0 false), .file (.openEnter 0),
    .file (.openFill 0 false), .file (.openMark 0), .file (.openDone 0 1),
    .file (.pwrite 0 0 0 [66]), .file (.writeDone 0), .file .flushLock,
    .file .flushSnapshot, .file (.uploadOk [66]), .file .flushUnlock,
    .file .hubOk, .file (.applyCommit 2),
    .updateRemote (some (ContentStore.spelled.hash [67])) none 1 3 none,
    .file (.pwrite 0 0 1 [68, 69]), .file (.writeDone 0)]

theorem sizesFit_writtenOn :
    AllSteps (step .plaintext .spelled) SizesFit (listed none) writtenOn := by
  refine .cons trivial rfl ?_
  refine .cons (Or.inr ?_) rfl ?_
  · rintro ⟨newEnd, _ | id, changed, ⟨⟩⟩
  refine .cons ?_ rfl ?_
  · rintro _ _ ⟨⟩
    exact ⟨rfl, rfl⟩
  refine .cons trivial rfl (.cons trivial rfl ?_)
  refine .cons ⟨?_, Or.inl rfl, Or.inl ⟨rfl, List.cons_ne_nil _ _⟩⟩ rfl ?_
  · rintro (_ | id) op ⟨⟩
  refine .cons trivial rfl (.cons trivial rfl (.cons trivial rfl ?_))
  refine .cons ?_ rfl ?_
  · rintro item ⟨⟩
  refine .cons trivial rfl (.cons trivial rfl (.cons trivial rfl ?_))
  refine .cons (Or.inr (Or.inl rfl)) rfl ?_
  refine .cons ⟨?_, Or.inr (Or.inl rfl),
    Or.inl ⟨rfl, List.cons_ne_nil _ _⟩⟩ rfl ?_
  · rintro (_ | id) op ⟨⟩
  exact .cons trivial rfl trivial

theorem size_is_staged_of_fits_writtenOn :
    SizeIsStaged ((exec (step .plaintext .spelled) (listed none)
      writtenOn).get rfl).file :=
  size_is_staged_of_fits spelled_named (initial_listed none) plain_listed
    (by rintro ⟨⟩) (Option.some_get _).symm
    (AllSteps.and (by decide) (AllSteps.and (by decide) sizesFit_writtenOn))

/-- A write after an update from the remote grows the size of the new object,
not that of the staging file. -/
theorem size_not_staged :
    ¬ ∀ (store : ContentStore) (initial final : StagingCache)
      (events : List CacheEvent), (∀ content, store.hash content ≠ []) →
      initial.Initial → Plain store initial →
      (initial.file.entry.isDirty = true →
        initial.file.stagedLength = some initial.file.entry.size) →
      exec (step .plaintext store) initial events = some final →
      AllSteps (step .plaintext store)
        (fun cache event => cache.Fits event ∧ cache.MetadataFits store event)
        initial events →
      SizeIsStaged final.file := by
  intro claim
  have staged := claim .spelled (listed none) _
    (leftBehind ++ [.file (.pwrite 0 0 0 [69]), .file (.writeDone 0)])
    spelled_named (initial_listed none) plain_listed (by rintro ⟨⟩) rfl
    (by decide) rfl (by rintro (_ | id) <;> rfl)
  exact absurd staged (by decide)

end StagingCache

end HfMount.Flush
