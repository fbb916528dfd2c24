import HfMount.Flush.Effects

/-!
# No lost write

A clean inode whose staging file nobody is changing is on the Hub as it is
staged.  The effect of a step decides what becomes of this invariant: the
shortcut that skips the Hub commit is the one step that needs more, namely that
the recorded hash is the one the Hub holds.
-/

namespace HfMount.Flush

open Inode Transition

namespace StagedFile

/-- What a clean, settled, staged inode guarantees. -/
def Kept (store : ContentStore) (file : StagedFile) : Prop :=
  file.entry.dirtyGeneration = 0 → ¬ file.Unsettled →
    ∀ staged, file.staging = some staged →
      file.remote = some (file.disk staged) ∧
        file.entry.xetHash = some (store.hash (file.disk staged))

structure Sound (store : ContentStore) (file : StagedFile) : Prop where
  bounded : file.entry.dirtyGeneration ≤ u64Max
  snapshot : ∀ item, file.flush.item = some item →
    0 < item.dirtyGeneration ∧
      item.dirtyGeneration ≤ file.entry.dirtyGeneration
  disturbed : ∀ item, file.flush = .uploading item false →
    file.Overtaken item ∨ file.staging = none
  content : ∀ item content, file.flush.item = some item →
    file.flush.content = some content →
    file.Overtaken item ∨ file.Holds content
  committed : ∀ item content, file.flush = .committed item content →
    file.remote = some content
  kept : file.Kept store

/-- A file that was just listed and has no staging file, or that was just
created and is dirty; nothing is in progress. -/
structure Initial (file : StagedFile) : Prop where
  bounded : file.entry.dirtyGeneration ≤ u64Max
  idle : file.flush = .idle
  fresh : file.staging = none ∨ file.entry.isDirty = true

/-- The unchanged shortcut of a flush that was not overtaken is taken only
when the recorded hash is the one of the content that the Hub holds. -/
def ShortcutCurrent (store : ContentStore) (file : StagedFile) :
    FileEvent → Prop
  | .flushUnchanged _ => ∀ item, file.flush.item = some item →
      file.entry.dirtyGeneration = item.dirtyGeneration →
      item.prevXetHash = file.remote.map store.hash
  | _ => True

instance (store : ContentStore) (file : StagedFile) :
    ∀ event, Decidable (file.ShortcutCurrent store event)
  | .flushUnchanged _ =>
      inferInstanceAs (Decidable (∀ item, file.flush.item = some item →
        file.entry.dirtyGeneration = item.dirtyGeneration →
        item.prevXetHash = file.remote.map store.hash))
  | .openStart _ _ | .openEnter _ | .openFill _ _ | .openMark _
  | .openDone _ _ | .setattr _ _ | .setattrEnter _ | .setattrApply _ _
  | .pwrite _ _ _ _ | .writeDone _ | .gcOne | .flushLock | .flushSnapshot
  | .uploadOk _ | .uploadFail | .flushUnlock | .hubOk | .hubFail
  | .applyCommit _ => isTrue trivial

theorem sound_initial {file : StagedFile} (store : ContentStore)
    (initial : file.Initial) : file.Sound store := by
  have idle := initial.idle
  refine ⟨initial.bounded, ?_, ?_, ?_, ?_, ?_⟩
  · simp [idle]
  · simp [idle]
  · simp [idle]
  · simp [idle]
  · intro clean _ staged found
    rcases initial.fresh with absent | dirty
    · rw [absent] at found
      cases found
    · have positive := InodeEntry.isDirty_iff.mp dirty
      omega

theorem Sound.tracked {file : StagedFile} {store : ContentStore}
    (sound : file.Sound store) : file.Tracked :=
  ⟨sound.bounded, sound.snapshot, sound.disturbed, sound.content⟩

theorem Tracked.sound {file : StagedFile} {store : ContentStore}
    (tracked : file.Tracked)
    (committed : ∀ item content, file.flush = .committed item content →
      file.remote = some content)
    (kept : file.Kept store) : file.Sound store :=
  ⟨tracked.bounded, tracked.snapshot, tracked.disturbed, tracked.content,
    committed, kept⟩

theorem SameFlush.committed {before after : StagedFile} {store : ContentStore}
    (same : before.SameFlush after) (sound : before.Sound store)
    (item : FlushItem) (content : Bytes)
    (committed : after.flush = .committed item content) :
    after.remote = some content := by
  rw [same.2]
  rcases same.1 with flush | flush
  · exact sound.committed item content (flush ▸ committed)
  · exact sound.committed item content
      (disturb_eq_committed (flush ▸ committed))

/-- A commit that lands and that the Hub holds: the staged content is the
uploaded one. -/
theorem Sound.applied {before : StagedFile} {store : ContentStore}
    (sound : before.Sound store) {item : FlushItem} {content : Bytes}
    (committed : before.flush = .committed item content ∨
      before.flush = .released item content)
    (held : before.entry.dirtyGeneration = item.dirtyGeneration →
      before.remote = some content) (now : Time) :
    (before.applied store item content now).Sound store := by
  refine (sound.tracked.applied item content now).sound ?_ ?_
  · rintro other read ⟨⟩
  · unfold StagedFile.applied
    by_cases same : before.entry.dirtyGeneration = item.dirtyGeneration
    · rw [InodeEntry.applyCommit_of_eq same]
      intro _ settled staged found
      have diskContent : before.disk staged = content :=
        sound.tracked.holds_of_lands committed same settled staged found
      dsimp only [InodeEntry.recordCommit]
      rw [diskContent]
      exact ⟨held same, rfl⟩
    · rw [InodeEntry.applyCommit_of_ne same]
      exact sound.kept

theorem Sound.effect {before after : StagedFile} {store : ContentStore}
    (sound : before.Sound store) (effect : Effect store before after) :
    after.Sound store := by
  refine (sound.tracked.effect effect).sound ?_ ?_
  · cases effect with
    | unaffected same =>
        rw [same.flush, same.remote]
        exact sound.committed
    | unsettled same => exact same.committed sound
    | dirtied entry same => exact same.committed sound
    | unstaged same => exact same.committed sound
    | dropped flush lock idle =>
        rintro item content ⟨⟩
        cases idle
    | snapshotted item => rintro other content ⟨⟩
    | uploaded item content => rintro other read ⟨⟩
    | released item content => rintro other read ⟨⟩
    | committed item content =>
        rintro other read ⟨⟩
        rfl
    | applied item content => rintro other read ⟨⟩
  · cases effect with
    | unaffected same =>
        intro clean settled staged found
        rw [same.staging] at found
        rw [same.remote, same.hash, same.disk staged found]
        exact sound.kept (same.generation ▸ clean)
          (fun earlier => settled (same.unsettled earlier)) staged found
    | unsettled same generation unsettled =>
        exact fun _ settled => absurd unsettled settled
    | dirtied entry same earlier generation moves =>
        intro clean
        have positive := entry.setDirty_pos
        omega
    | unstaged same generation absent =>
        intro _ _ staged found
        rw [absent] at found
        cases found
    | dropped => exact sound.kept
    | snapshotted => exact sound.kept
    | uploaded => exact sound.kept
    | released => exact sound.kept
    | committed item content released =>
        intro clean
        obtain ⟨positive, atMost⟩ := sound.snapshot item (by simp [released])
        dsimp only at clean
        omega
    | applied item content now committed =>
        exact (sound.applied (Or.inl committed)
          (fun _ => sound.committed item content committed) now).kept

/-! ## Runs -/

theorem step_sound (store : ContentStore) (before : StagedFile)
    (event : FileEvent) (after : StagedFile) (sound : before.Sound store)
    (good : before.ShortcutCurrent store event ∧ before.GenerationMoves event)
    (stepped : before.step store event = some after) : after.Sound store := by
  rcases step_effect good.2 stepped with
    effect | ⟨⟨now, rfl⟩, item, content, committedAt, released, unchanged, rfl⟩
  · exact sound.effect effect
  apply sound.applied (Or.inr released)
  intro same
  have recorded := good.1 item (by simp [released]) same
  have uploaded : item.prevXetHash = some (store.hash content) := by
    simp only [FlushItem.unchanged, Bool.and_eq_true, beq_iff_eq] at unchanged
    exact unchanged.2
  obtain ⟨held, remote, hash⟩ :=
    Option.map_eq_some_iff.mp (recorded.symm.trans uploaded)
  rw [remote, store.hash_injective hash]

/-- In every interleaving of writes, opens and truncations with flushes in
which the unchanged shortcut is only taken for the hash that the Hub holds, a
clean settled staged inode is on the Hub as it is staged, under its recorded
hash. -/
theorem clean_kept_of_shortcut_current (store : ContentStore)
    {initial final : StagedFile} {events : List FileEvent}
    (start : initial.Initial) (run : exec (step store) initial events = some final)
    (good : AllSteps (step store)
      (fun file event =>
        file.ShortcutCurrent store event ∧ file.GenerationMoves event)
      initial events) :
    final.Kept store :=
  (exec_invariant (step_sound store) (sound_initial store start) good run).kept

/-- A file that a listing brought in, with the content `[65]` on the Hub. -/
def listed (store : ContentStore) : StagedFile :=
  { entry := .new 2 1 ['f'] ['f'] .file 1 0 (some (store.hash [65])) 420 0 0 0 0
    staging := none
    disk := fun _ => []
    nextFile := 0
    handles := []
    lock := none
    op := fun _ => none
    flush := .idle
    remote := some [65] }

/-- The file is opened, overwritten and flushed. -/
def writeAndFlush : List FileEvent :=
  [.openStart 0 false, .openEnter 0, .openFill 0 false, .openMark 0,
    .openDone 0 1, .pwrite 0 0 0 [66], .writeDone 0, .flushLock,
    .flushSnapshot, .uploadOk [66], .flushUnlock, .hubOk, .applyCommit 2]

theorem clean_kept_of_shortcut_current_one_flush :
    ((exec (step .spelled) (listed .spelled) writeAndFlush).get
      rfl).Kept .spelled :=
  clean_kept_of_shortcut_current .spelled
    { bounded := by decide, idle := rfl, fresh := Or.inl rfl }
    (Option.some_get _).symm (by decide)

/-- While the upload of `[66]` is committed the old content is written back;
the flush that follows finds the recorded hash and skips the commit. -/
def writeBack : List FileEvent :=
  [.openStart 0 false, .openEnter 0, .openFill 0 false, .openMark 0,
    .openDone 0 1, .pwrite 0 0 0 [66], .writeDone 0, .flushLock,
    .flushSnapshot, .uploadOk [66], .flushUnlock, .pwrite 0 0 0 [65],
    .writeDone 0, .hubOk, .applyCommit 2, .flushLock, .flushSnapshot,
    .uploadOk [65], .flushUnlock, .flushUnchanged 3]

theorem clean_not_kept :
    ¬ ∀ (store : ContentStore) (initial final : StagedFile)
      (events : List FileEvent), initial.Initial →
      exec (step store) initial events = some final → final.Kept store := by
  intro claim
  have kept := claim .spelled (listed .spelled) _ writeBack
    { bounded := by decide, idle := rfl, fresh := Or.inl rfl } rfl
  have settled : ¬ ((exec (step .spelled) (listed .spelled) writeBack).get
      rfl).Unsettled := by
    rintro ⟨id, op, found, changed⟩
    cases id with
    | zero => cases found
    | succ id => cases found
  exact absurd (kept rfl settled 0 rfl).1 (by decide)

end StagedFile

end HfMount.Flush
