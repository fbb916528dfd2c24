import HfMount.Flush.CacheFlag

/-!
# What the cache flag says is true

The opens of an encrypted mount have the effects that plaintext opens have, and
what they place is right for the same reasons.  With an operation that fails
covered by what it has placed, every step keeps the flag of a clean inode
truthful.
-/

namespace HfMount.Flush

open Inode Transition

namespace StagedFile

/-! ## The effects of encrypted opens and writes -/

section

variable {store : ContentStore} {before after : StagedFile} {id : Nat}

theorem encryptedEnter_effect (stepped : before.encryptedEnter id = some after) :
    Effect store before after := by
  unfold encryptedEnter at stepped
  split at stepped
  · rename_i hash size truncate waiting free
    obtain rfl := Option.some.inj stepped
    have harmless : ∀ op, before.op id = some op → op.changed = false := by
      simp [waiting]
    exact .unaffected ⟨⟨rfl, rfl, rfl, fun _ _ => rfl,
      fun given => given.setOp harmless _⟩, rfl, rfl, fun flagged => flagged⟩
  · cases stepped

theorem encryptedFill_effect {container : Bytes} {replaced : Bool}
    (stepped : before.encryptedFill store container id replaced = some after) :
    Effect store before after := by
  unfold encryptedFill at stepped
  split at stepped
  · rename_i hash size truncate preparing
    have placed : ∀ place content op, op.changed = true →
        Effect store before
          ((before.placeFile place content).setOp id (some op)) := by
      intro place content op changed
      apply Effect.unsettled
      · exact before.placeFile_sameFlush place content
      · exact congrArg _ (before.placeFile_entry place content)
      · exact unsettled_setOp changed
    split at stepped
    · split at stepped <;> obtain rfl := Option.some.inj stepped
      · exact placed _ _ _ rfl
      · have harmless : ∀ op, before.op id = some op →
            op.changed = false := by
          simp [preparing]
        exact .unaffected ⟨⟨rfl, rfl, rfl, fun _ _ => rfl,
          fun given => given.setOp harmless _⟩, rfl, rfl,
          fun flagged => flagged⟩
    · obtain rfl := Option.some.inj stepped
      exact placed _ _ _ rfl
  · cases stepped

theorem encryptedMark_effect (stepped : before.encryptedMark id = some after) :
    Effect store before after := by
  unfold encryptedMark at stepped
  split at stepped
  · obtain rfl := Option.some.inj stepped
    exact .unsettled ⟨Or.inl rfl, rfl⟩ rfl
      ⟨id, _, Function.update_self _ _ _, rfl⟩
  · cases stepped

theorem encryptedDone_effect {container : Bytes} {now : Time}
    (moves : ∀ item, before.flush.item = some item →
      item.dirtyGeneration < u64Max)
    (stepped : before.encryptedDone container id now = some after) :
    Effect store before after := by
  unfold encryptedDone at stepped
  split at stepped
  · obtain rfl := Option.some.inj stepped
    exact .dirtied before.entry ⟨Or.inl rfl, rfl⟩ rfl rfl moves
  · rename_i absent
    obtain rfl := Option.some.inj stepped
    exact .unstaged ⟨Or.inl rfl, rfl⟩ rfl absent
  · cases stepped

theorem encryptedWrite_effect {newEnd : Nat} {content : Bytes}
    (stepped : before.encryptedWrite id newEnd content = some after) :
    Effect store before after := by
  unfold encryptedWrite at stepped
  split at stepped
  · split at stepped
    · cases stepped
    obtain rfl := Option.some.inj stepped
    apply Effect.unsettled
    · exact before.placeFile_sameFlush false content
    · exact congrArg _ (before.placeFile_entry false content)
    · exact unsettled_setOp rfl
  · cases stepped

end

end StagedFile

namespace StagingCache

section

variable {format : StagingFormat} {store : ContentStore}
  {cache : StagingCache} {file : StagedFile} {id : Nat}

/-! ## The lock in encrypted opens and writes -/

theorem placeFile_holdsLock {file : StagedFile} {replaced : Bool}
    {content : Bytes}
    (holds : (file.placeFile replaced content).flush.holdsLock = true) :
    file.flush.holdsLock = true := by
  rwa [placeFile_flush, disturb_holdsLock] at holds

/-- The holder of the lock places a file and goes on. -/
theorem Locked.placing (locked : Locked cache.file) {old : FileOp}
    (found : cache.file.op id = some old) (holds : old.holdsLock = true)
    (replaced : Bool) (content : Bytes) (next : FileOp) :
    Locked ((cache.file.placeFile replaced content).setOp id (some next)) := by
  have mine := locked.op id old found holds
  refine locked.replace (placed_op _ _ _ _ _) ?_ ?_ placeFile_holdsLock
  · intro op _ _
    simpa [StagedFile.setOp] using mine
  · left
    simp [StagedFile.setOp]

/-- The holder of the lock is done. -/
theorem Locked.finish (locked : Locked cache.file) {old : FileOp}
    (found : cache.file.op id = some old) (holds : old.holdsLock = true) :
    Locked (cache.file.finishOp id) :=
  locked.replace rfl (by rintro _ ⟨⟩)
    (Or.inr (Or.inr (locked.op id old found holds))) fun flushing => flushing

theorem locked_encryptedEnter (locked : Locked cache.file)
    (stepped : cache.file.encryptedEnter id = some file) : Locked file := by
  unfold StagedFile.encryptedEnter at stepped
  split at stepped
  · rename_i free
    obtain rfl := Option.some.inj stepped
    exact locked.replace rfl (fun _ _ _ => rfl) (Or.inr (Or.inl free))
      fun flushing => flushing
  · cases stepped

theorem locked_encryptedFill {container : Bytes} {replaced : Bool}
    (locked : Locked cache.file)
    (stepped : cache.file.encryptedFill store container id replaced =
      some file) : Locked file := by
  unfold StagedFile.encryptedFill at stepped
  split at stepped
  · rename_i preparing
    split at stepped
    · split at stepped <;> obtain rfl := Option.some.inj stepped
      · exact locked.placing preparing rfl _ _ _
      · exact locked.finish preparing rfl
    · obtain rfl := Option.some.inj stepped
      exact locked.placing preparing rfl _ _ _
  · cases stepped

theorem locked_encryptedMark (locked : Locked cache.file)
    (stepped : cache.file.encryptedMark id = some file) : Locked file := by
  unfold StagedFile.encryptedMark at stepped
  split at stepped
  · rename_i filled
    obtain rfl := Option.some.inj stepped
    exact locked.replace rfl (fun _ _ _ => locked.op id _ filled rfl)
      (Or.inl rfl) fun flushing => flushing
  · cases stepped

theorem locked_encryptedDone {container : Bytes} {now : Time}
    (locked : Locked cache.file)
    (stepped : cache.file.encryptedDone container id now = some file) :
    Locked file := by
  unfold StagedFile.encryptedDone at stepped
  split at stepped
  · rename_i prepared _
    obtain rfl := Option.some.inj stepped
    exact locked.replace rfl (by rintro _ ⟨⟩)
      (Or.inr (Or.inr (locked.op id _ prepared rfl))) fun flushing => flushing
  · rename_i prepared _
    obtain rfl := Option.some.inj stepped
    exact locked.finish prepared rfl
  · cases stepped

theorem locked_encryptedWrite {newEnd : Nat} {content : Bytes}
    (locked : Locked cache.file)
    (stepped : cache.file.encryptedWrite id newEnd content = some file) :
    Locked file := by
  unfold StagedFile.encryptedWrite at stepped
  split at stepped
  · split at stepped
    · cases stepped
    obtain rfl := Option.some.inj stepped
    refine locked.replace (placed_op _ _ _ _ _) (by rintro _ ⟨⟩ ⟨⟩) ?_
      placeFile_holdsLock
    left
    simp [StagedFile.setOp]
  · cases stepped

/-! ## What encrypted opens place -/

theorem placedRight_encryptedEnter (right : PlacedRight format store cache)
    (locked : Locked cache.file)
    (stepped : cache.file.encryptedEnter id = some file) :
    PlacedRight format store { cache with file } := by
  unfold StagedFile.encryptedEnter at stepped
  split at stepped
  · rename_i free
    have unplaced := right.unplaced locked (free_of_none free)
    obtain rfl := Option.some.inj stepped
    refine right.replace_none unplaced unplaced rfl ?_
    rintro op ⟨⟩ _
    split <;> rfl
  · cases stepped

theorem placedRight_encryptedFill {container : Bytes} {replaced : Bool}
    (right : PlacedRight (.encrypted container) store cache)
    (locked : Locked cache.file)
    (stepped : cache.file.encryptedFill store container id replaced =
      some file) :
    PlacedRight (.encrypted container) store
      { file
        placed := placedAfter store cache.file cache.placed
          (.openFill id replaced) } := by
  unfold StagedFile.encryptedFill at stepped
  split at stepped
  · rename_i hash size truncate preparing
    have unplaced := right.unplaced_of_holder locked preparing rfl rfl
    have placedIs : placedAfter store cache.file cache.placed
        (.openFill id replaced) = placedBy store hash size truncate := by
      simp only [placedAfter, preparing]
    split at stepped <;> rename_i needed
    · split at stepped
      · rename_i content fetched
        obtain rfl := Option.some.inj stepped
        exact PlacedRight.filled (placed_op _ _ _ _ _) rfl rfl
          (placedIs.trans (placedBy_fetched needed fetched))
          ((remoteObject_fetched needed).trans fetched)
          fun staged found => placeFile_staged cache.file _ _ found
      · rename_i missing
        obtain rfl := Option.some.inj stepped
        refine right.replace_none unplaced
          (placedIs.trans (placedBy_missing needed missing)) rfl ?_
        rintro _ ⟨⟩
    · obtain rfl := Option.some.inj stepped
      exact PlacedRight.filled (placed_op _ _ _ _ _) rfl rfl
        (placedIs.trans (placedBy_fresh needed)) rfl
        fun staged found => placeFile_staged cache.file _ _ found
  · cases stepped

theorem placedRight_encryptedMark (right : PlacedRight format store cache)
    (stepped : cache.file.encryptedMark id = some file) :
    PlacedRight format store { cache with file } := by
  unfold StagedFile.encryptedMark at stepped
  split at stepped
  · rename_i filled
    obtain rfl := Option.some.inj stepped
    exact placedRight_mark right filled rfl rfl rfl rfl rfl
  · cases stepped

theorem placedRight_encryptedDone {container : Bytes} {now : Time}
    (locked : Locked cache.file)
    (stepped : cache.file.encryptedDone container id now = some file) :
    PlacedRight format store { file, placed := none } := by
  unfold StagedFile.encryptedDone at stepped
  split at stepped
  · rename_i prepared _
    obtain rfl := Option.some.inj stepped
    exact placedRight_of_finished locked prepared rfl rfl rfl
  · rename_i prepared _
    obtain rfl := Option.some.inj stepped
    exact placedRight_of_finished locked prepared rfl rfl rfl
  · cases stepped

theorem placedRight_encryptedWrite {newEnd : Nat} {content : Bytes}
    (right : PlacedRight format store cache)
    (stepped : cache.file.encryptedWrite id newEnd content = some file) :
    PlacedRight format store { cache with file } := by
  unfold StagedFile.encryptedWrite at stepped
  split at stepped
  · rename_i free _
    split at stepped
    · cases stepped
    obtain rfl := Option.some.inj stepped
    have absent : ∀ op, cache.file.op id ≠ some op := by
      intro op
      rw [free]
      rintro ⟨⟩
    refine right.replace rfl (placed_op _ _ _ _ _)
      (fun op found => absurd found (absent op)) ?_ ?_
    · rintro _ ⟨⟩ ⟨⟩
    · exact Or.inl (Or.inl ⟨id, _, Function.update_self _ _ _, rfl, rfl⟩)
  · cases stepped

end

/-! ## The flag -/

/-- A clean, settled, staged inode that is flagged as current stages the
object that it names. -/
def Cached (format : StagingFormat) (store : ContentStore)
    (file : StagedFile) : Prop :=
  file.entry.dirtyGeneration = 0 → file.entry.stagingIsCurrent = true →
    ¬ file.Unsettled → ∀ staged, file.staging = some staged →
      format.remoteObject store (file.entry.xetHash.getD []) =
        some (file.disk staged)

structure Honest (format : StagingFormat) (store : ContentStore)
    (cache : StagingCache) : Prop where
  tracked : cache.file.Tracked
  locked : Locked cache.file
  right : PlacedRight format store cache
  cached : Cached format store cache.file

section

variable {format : StagingFormat} {store : ContentStore}

/-- A commit that lands flags what it has uploaded. -/
theorem Cached.applied {file : StagedFile}
    (named : ∀ content, store.hash content ≠ [])
    (cached : Cached format store file) (tracked : file.Tracked)
    {item : FlushItem} {content : Bytes}
    (committed : file.flush = .committed item content ∨
      file.flush = .released item content) (now : Time) :
    Cached format store (file.applied store item content now) := by
  unfold StagedFile.applied
  by_cases lands : file.entry.dirtyGeneration = item.dirtyGeneration
  · rw [InodeEntry.applyCommit_of_eq lands]
    intro _ _ settled staged found
    have uploaded : file.disk staged = content :=
      tracked.holds_of_lands committed lands settled staged found
    have spelled : (store.hash content).isEmpty = false := by
      simpa using named content
    dsimp only [InodeEntry.recordCommit, Option.getD_some]
    rw [StagingFormat.remoteObject, spelled, uploaded]
    exact store.fetch_hash content
  · rw [InodeEntry.applyCommit_of_ne lands]
    exact cached

theorem Cached.effect {before after : StagedFile}
    (named : ∀ content, store.hash content ≠ [])
    (cached : Cached format store before) (tracked : before.Tracked)
    (effect : StagedFile.Effect store before after) :
    Cached format store after := by
  cases effect with
  | unaffected same =>
      intro clean current settled staged found
      rw [same.staging] at found
      rw [same.hash, same.disk staged found]
      exact cached (same.generation ▸ clean) (same.current current)
        (fun earlier => settled (same.unsettled earlier)) staged found
  | unsettled same generation unsettled =>
      exact fun _ _ settled => absurd unsettled settled
  | dirtied entry same earlier generation moves =>
      intro clean
      have positive := entry.setDirty_pos
      omega
  | unstaged same generation absent =>
      intro _ _ _ staged found
      rw [absent] at found
      cases found
  | dropped => exact cached
  | snapshotted => exact cached
  | uploaded => exact cached
  | released => exact cached
  | committed => exact cached
  | applied item content now committed =>
      exact cached.applied named tracked (Or.inl committed) now

/-- An effect, or the shortcut of a flush, on an honest cache. -/
theorem Honest.effect {before after : StagingCache}
    (honest : Honest format store before)
    (named : ∀ content, store.hash content ≠ [])
    (effect : StagedFile.Effect store before.file after.file)
    (locked : Locked after.file) (right : PlacedRight format store after) :
    Honest format store after :=
  ⟨honest.tracked.effect effect, locked, right,
    honest.cached.effect named honest.tracked effect⟩

theorem honest_file {cache : StagingCache} {file : StagedFile}
    {event : FileEvent} (honest : Honest format store cache)
    (named : ∀ content, store.hash content ≠ [])
    (allowed : format.allows event = true)
    (moves : cache.file.GenerationMoves event)
    (stepped : cache.file.step store event = some file) :
    Honest format store
      { file
        placed := placedAfter store cache.file cache.placed event } := by
  have locked := locked_step honest.locked stepped
  have right := placedRight_file honest.right honest.locked honest.tracked
    allowed moves stepped
  rcases StagedFile.step_effect moves stepped with
    effect | ⟨_, item, content, now, released, _, rfl⟩
  · exact honest.effect named effect locked right
  · exact ⟨honest.tracked.applied item content now, locked, right,
      honest.cached.applied named honest.tracked (Or.inr released) now⟩

/-- The inode changes, but neither its generation nor what is staged, and the
flag is not set unless the inode is what it was. -/
theorem Honest.reentry {cache : StagingCache} {entry : InodeEntry}
    (honest : Honest format store cache)
    (generation : entry.dirtyGeneration = cache.file.entry.dirtyGeneration)
    (cleared : entry = cache.file.entry ∨ entry.stagingIsCurrent = false) :
    Honest format store
      { cache with file := { cache.file with entry } } := by
  refine ⟨?_, ?_, ?_, ?_⟩
  · exact honest.tracked.unaffected
      ⟨rfl, generation, rfl, fun _ _ => rfl, fun unsettled => unsettled⟩
  · exact honest.locked.flushed rfl (Or.inl ⟨rfl, fun flushing => flushing⟩)
  · refine honest.right.sameOps rfl rfl fun _ _ =>
      Or.inr ⟨?_, rfl, fun _ _ => rfl⟩
    exact fun isOver => isOver.sameStaged rfl
      ⟨generation, rfl, fun _ _ => rfl, fun _ running => running⟩
  · rcases cleared with rfl | unflagged
    · exact honest.cached
    · intro _ current
      rw [unflagged] at current
      cases current

theorem updateRemote_generation (entry : InodeEntry)
    (hash etag : Option Hash) (size : Nat) (mtime : Time)
    (cipherSize : Option Nat) :
    (entry.updateRemote hash etag size mtime cipherSize).dirtyGeneration =
      entry.dirtyGeneration := by
  unfold InodeEntry.updateRemote
  split <;> rfl

theorem updateRemote_cleared (entry : InodeEntry) (hash etag : Option Hash)
    (size : Nat) (mtime : Time) (cipherSize : Option Nat) :
    entry.updateRemote hash etag size mtime cipherSize = entry ∨
      (entry.updateRemote hash etag size mtime cipherSize).stagingIsCurrent =
        false := by
  unfold InodeEntry.updateRemote
  split
  · exact Or.inl rfl
  · exact Or.inr rfl

theorem mergeRemote_generation (entry : InodeEntry) (hash : Option Hash)
    (size : Option Nat) (mtime : Option Time) :
    (entry.mergeRemote hash size mtime).dirtyGeneration =
      entry.dirtyGeneration := by
  unfold InodeEntry.mergeRemote
  split <;> rfl

theorem mergeRemote_cleared (entry : InodeEntry) (hash : Option Hash)
    (size : Option Nat) (mtime : Option Time) :
    entry.mergeRemote hash size mtime = entry ∨
      (entry.mergeRemote hash size mtime).stagingIsCurrent = false := by
  unfold InodeEntry.mergeRemote
  split
  · exact Or.inl rfl
  · exact Or.inr rfl

/-! ## An operation that fails -/

/-- Whatever the operation that fails leaves in the staging file, no commit of
the old content lands, and the flag does not vouch for it. -/
theorem Honest.fails {before after : StagingCache}
    (honest : Honest format store before) {source : Option Hash}
    (fits : before.FailFits (some source))
    (entry : after.file.entry = before.file.entry)
    (items : after.file.flush.item = before.file.flush.item)
    (vouched : before.file.entry.isDirty = false →
      source = some (before.file.entry.xetHash.getD []) →
      Cached format store after.file)
    (locked : Locked after.file) (right : PlacedRight format store after) :
    Honest format store after := by
  have tracked := honest.tracked
  have passed : ∀ item, after.file.flush.item = some item →
      0 < item.dirtyGeneration ∧
        item.dirtyGeneration < after.file.entry.dirtyGeneration := by
    intro item running
    rw [items] at running
    obtain ⟨positive, atMost⟩ := tracked.snapshot item running
    have apart := fits.1 item running
    rw [entry]
    omega
  refine ⟨⟨entry ▸ tracked.bounded, ?_, ?_, ?_⟩, locked, right, ?_⟩
  · exact fun item running =>
      ⟨(passed item running).1, Nat.le_of_lt (passed item running).2⟩
  · exact fun item uploading =>
      Or.inl (Or.inl (passed item (by rw [uploading]; rfl)).2)
  · exact fun item _ running _ => Or.inl (Or.inl (passed item running).2)
  · intro clean current
    rw [entry] at clean current
    have notDirty := InodeEntry.isDirty_eq_false_iff.mpr clean
    rcases fits.2 with dirty | unflagged | same
    · rw [dirty] at notDirty
      cases notDirty
    · rw [unflagged] at current
      cases current
    · have kept := vouched notDirty same
      rw [Cached, entry] at kept
      exact entry ▸ kept clean current

/-- What was placed and not overwritten is what the inode names. -/
theorem Honest.placed_cached {cache : StagingCache}
    (honest : Honest format store cache) {id : Nat} {op : FileOp}
    (found : cache.file.op id = some op) (holds : op.holdsLock = true)
    (clean : cache.file.entry.isDirty = false)
    (placed : cache.placed =
      some (some (cache.file.entry.xetHash.getD []))) :
    Cached format store (cache.file.finishOp id) := by
  intro _ _ settled staged isStaged
  rcases honest.right.content _ placed with
    (⟨other, otherOp, foundOther, free, changed⟩ | ⟨dirty, _⟩) | same
  · refine absurd ⟨other, otherOp, ?_, changed⟩ settled
    have distinct : other ≠ id := by
      rintro rfl
      obtain rfl := Option.some.inj (found.symm.trans foundOther)
      rw [holds] at free
      cases free
    exact (Function.update_of_ne distinct _ _).trans foundOther
  · rw [InodeEntry.isDirty_eq_false_iff.mp clean] at dirty
    cases dirty
  · exact same staged isStaged

/-- An operation fails that has placed nothing or an object. -/
theorem Honest.finishes {cache : StagingCache}
    (honest : Honest format store cache)
    (named : ∀ content, store.hash content ≠ []) {id : Nat} {op : FileOp}
    (found : cache.file.op id = some op) (holds : op.holdsLock = true)
    (fits : cache.FailFits cache.placed) :
    Honest format store
      { file := cache.file.finishOp id
        placed := none } := by
  have locked := honest.locked.finish found holds
  have right : PlacedRight format store
      { file := cache.file.finishOp id
        placed := none } :=
    placedRight_of_finished honest.locked found holds rfl rfl
  cases placed : cache.placed with
  | none =>
      have harmless : ∀ old, cache.file.op id = some old →
          old.changed = false := by
        intro old foundOld
        obtain rfl := Option.some.inj (found.symm.trans foundOld)
        exact honest.right.unchanged placed found holds
      refine honest.effect named (.unaffected ⟨⟨rfl, rfl, rfl,
        fun _ _ => rfl, fun given => given.setOp harmless none⟩, rfl, rfl,
        fun flagged => flagged⟩) locked right
  | some source =>
      rw [placed] at fits
      refine honest.fails fits rfl rfl ?_ locked right
      intro clean same
      exact honest.placed_cached found holds clean (placed.trans (by rw [same]))

theorem honest_fail {before after : StagingCache} {id : Nat}
    {leftover : Option Bytes} (honest : Honest format store before)
    (named : ∀ content, store.hash content ≠ [])
    (fits : before.Fits (.fail id leftover))
    (stepped : before.step format store (.fail id leftover) = some after) :
    Honest format store after := by
  cases leftover with
  | none =>
      simp only [step] at stepped
      split at stepped
      · rename_i preparing
        obtain rfl := Option.some.inj stepped
        exact honest.finishes named preparing rfl fits
      · rename_i filled
        obtain rfl := Option.some.inj stepped
        exact honest.finishes named filled rfl fits
      · rename_i prepared
        obtain rfl := Option.some.inj stepped
        exact honest.finishes named prepared rfl fits
      · rename_i ready
        obtain rfl := Option.some.inj stepped
        exact honest.finishes named ready rfl fits
      · cases stepped
  | some content =>
      simp only [step] at stepped
      split at stepped
      · rename_i preparing
        obtain rfl := Option.some.inj stepped
        have ops := placed_op before.file false content id none
        refine honest.fails fits ?_ ?_ ?_ ?_ ?_
        · exact before.file.placeFile_entry false content
        · exact (before.file.placeFile_sameFlush false content).item
        · intro _ impossible
          cases impossible
        · exact honest.locked.replace ops (by rintro _ ⟨⟩)
            (Or.inr (Or.inr (honest.locked.op id _ preparing rfl)))
            placeFile_holdsLock
        · exact placedRight_of_finished honest.locked preparing rfl ops rfl
      · cases stepped
      · cases stepped
      · cases stepped
      · cases stepped

theorem honest_setattrFails {before after : StagingCache} {id : Nat}
    {leftover : Bytes} (honest : Honest format store before)
    (fits : before.Fits (.setattrFails id leftover))
    (stepped : before.step format store (.setattrFails id leftover) =
      some after) : Honest format store after := by
  simp only [step] at stepped
  split at stepped
  · rename_i free _
    obtain rfl := Option.some.inj stepped
    have unplaced := honest.right.unplaced honest.locked (free_of_none free)
    have ops := placed_op before.file false leftover id none
    refine honest.fails fits ?_ ?_ ?_ ?_ ?_
    · exact before.file.placeFile_entry false leftover
    · exact (before.file.placeFile_sameFlush false leftover).item
    · intro _ impossible
      cases impossible
    · refine honest.locked.replace ops (by rintro _ ⟨⟩) ?_ placeFile_holdsLock
      left
      simp [StagedFile.setOp]
    · exact honest.right.replace_none unplaced unplaced ops
        (by rintro _ ⟨⟩)
  · cases stepped

theorem honest_cancel {before after : StagingCache} {id : Nat}
    (honest : Honest format store before)
    (named : ∀ content, store.hash content ≠ [])
    (stepped : before.step format store (.cancel id) = some after) :
    Honest format store after := by
  have cancelled : ∀ op, before.file.op id = some op →
      op.holdsLock = false → op.changed = false →
      Honest format store
        { before with file := before.file.setOp id none } := by
    intro op found free harmless
    have same : ∀ old, before.file.op id = some old → old = op := by
      intro old foundOld
      exact Option.some.inj (foundOld.symm.trans found)
    have unchanged : ∀ old, before.file.op id = some old →
        old.changed = false := by
      intro old foundOld
      rw [same old foundOld]
      exact harmless
    refine honest.effect named
      (.unaffected (StagedFile.unaffected_setOp unchanged none)) ?_ ?_
    · exact honest.locked.replace rfl (by rintro _ ⟨⟩) (Or.inl rfl)
        fun flushing => flushing
    · exact honest.right.replace rfl rfl (fun old foundOld _ =>
        unchanged old foundOld) (by rintro _ ⟨⟩) (Or.inr
        ⟨⟨rfl, rfl, fun _ _ => rfl, fun _ running => running⟩, unchanged⟩)
  simp only [step] at stepped
  split at stepped
  · rename_i opening
    obtain rfl := Option.some.inj stepped
    exact cancelled _ opening rfl rfl
  · rename_i truncating
    obtain rfl := Option.some.inj stepped
    exact cancelled _ truncating rfl rfl
  · cases stepped

/-! ## Runs -/

theorem step_honest (named : ∀ content, store.hash content ≠ [])
    (before : StagingCache) (event : CacheEvent) (after : StagingCache)
    (honest : Honest format store before) (fits : before.Fits event)
    (stepped : before.step format store event = some after) :
    Honest format store after := by
  cases event with
  | file event =>
      simp only [step] at stepped
      split at stepped
      · rename_i allowed
        obtain ⟨file, moved, rfl⟩ := Option.map_eq_some_iff.mp stepped
        exact honest_file honest named allowed fits moved
      · cases stepped
  | encryptedEnter id =>
      cases format with
      | plaintext => cases stepped
      | encrypted container =>
          obtain ⟨file, moved, rfl⟩ := Option.map_eq_some_iff.mp stepped
          exact honest.effect named (StagedFile.encryptedEnter_effect moved)
            (locked_encryptedEnter honest.locked moved)
            (placedRight_encryptedEnter honest.right honest.locked moved)
  | encryptedFill id replaced =>
      cases format with
      | plaintext => cases stepped
      | encrypted container =>
          obtain ⟨file, moved, rfl⟩ := Option.map_eq_some_iff.mp stepped
          exact honest.effect named (StagedFile.encryptedFill_effect moved)
            (locked_encryptedFill honest.locked moved)
            (placedRight_encryptedFill honest.right honest.locked moved)
  | encryptedMark id =>
      cases format with
      | plaintext => cases stepped
      | encrypted container =>
          obtain ⟨file, moved, rfl⟩ := Option.map_eq_some_iff.mp stepped
          exact honest.effect named (StagedFile.encryptedMark_effect moved)
            (locked_encryptedMark honest.locked moved)
            (placedRight_encryptedMark honest.right moved)
  | encryptedDone id now =>
      cases format with
      | plaintext => cases stepped
      | encrypted container =>
          obtain ⟨file, moved, rfl⟩ := Option.map_eq_some_iff.mp stepped
          exact honest.effect named
            (StagedFile.encryptedDone_effect fits moved)
            (locked_encryptedDone honest.locked moved)
            (placedRight_encryptedDone honest.locked moved)
  | encryptedWrite id newEnd content =>
      cases format with
      | plaintext => cases stepped
      | encrypted container =>
          obtain ⟨file, moved, rfl⟩ := Option.map_eq_some_iff.mp stepped
          exact honest.effect named (StagedFile.encryptedWrite_effect moved)
            (locked_encryptedWrite honest.locked moved)
            (placedRight_encryptedWrite honest.right moved)
  | cancel id => exact honest_cancel honest named stepped
  | fail id leftover => exact honest_fail honest named fits stepped
  | setattrFails id leftover => exact honest_setattrFails honest fits stepped
  | updateRemote hash etag size mtime cipherSize =>
      simp only [step] at stepped
      split at stepped
      · cases stepped
      obtain rfl := Option.some.inj stepped
      exact honest.reentry (updateRemote_generation _ _ _ _ _ _)
        (updateRemote_cleared _ _ _ _ _ _)
  | mergeRemote hash size mtime =>
      simp only [step] at stepped
      obtain rfl := Option.some.inj stepped
      exact honest.reentry (mergeRemote_generation _ _ _ _)
        (mergeRemote_cleared _ _ _ _)

theorem honest_initial {cache : StagingCache} (initial : cache.Initial) :
    Honest format store cache := by
  refine ⟨?_, ?_, ?_, ?_⟩
  · exact StagedFile.tracked_of_idle initial.bounded (by rw [initial.idle]; rfl)
  · constructor
    · intro id op found
      rw [initial.noOps id] at found
      cases found
    · rw [initial.idle]
      rintro ⟨⟩
  · apply placedRight_of_none initial.unplaced
    intro id op found
    rw [initial.noOps id] at found
    cases found
  · intro clean _ _ staged found
    rcases initial.fresh with absent | dirty
    · rw [absent] at found
      cases found
    · have positive := InodeEntry.isDirty_iff.mp dirty
      omega

theorem Honest.truthful {cache : StagingCache}
    (honest : Honest format store cache) : cache.Truthful format store := by
  intro clean current quiet staged found
  refine honest.cached (InodeEntry.isDirty_eq_false_iff.mp clean) current ?_
    staged found
  rintro ⟨id, op, running, changed⟩
  rw [(quiet id op running).2] at changed
  cases changed

/-- In every interleaving in which no operation fails that has put something
into the staging file for which a commit under way or the flag vouches, the
flag is truthful. -/
theorem truthful_of_fits (named : ∀ content, store.hash content ≠ [])
    {initial final : StagingCache} {events : List CacheEvent}
    (start : initial.Initial)
    (run : exec (step format store) initial events = some final)
    (fits : AllSteps (step format store) Fits initial events) :
    final.Truthful format store :=
  (exec_invariant (step_honest named) (honest_initial start) fits run).truthful

end

/-- A listed file whose object has the content `[65]`, not yet staged. -/
def listed (cipherSize : Option Nat) : StagingCache where
  file :=
    { entry := { InodeEntry.new 2 1 ['f'] ['f'] .file 1 0
        (some (ContentStore.spelled.hash [65])) 420 0 0 0 0 with cipherSize }
      staging := none
      disk := fun _ => []
      nextFile := 0
      handles := []
      lock := none
      op := fun _ => none
      flush := .idle
      remote := some [65] }
  placed := none

theorem initial_listed (cipherSize : Option Nat) :
    (listed cipherSize).Initial :=
  ⟨Nat.zero_le _, rfl, Or.inl rfl, fun _ => rfl, rfl⟩

theorem spelled_named (content : Bytes) :
    ContentStore.spelled.hash content ≠ [] :=
  List.cons_ne_nil _ _

/-- An open fails once it has downloaded the file, the poll moves the hash,
and the next open downloads the new object. -/
def failedOpen : List CacheEvent :=
  [.file (.openStart 0 false), .file (.openEnter 0),
    .file (.openFill 0 false), .file (.openMark 0), .fail 0 none,
    .updateRemote (some (ContentStore.spelled.hash [66])) none 1 0 none,
    .file (.openStart 0 false), .file (.openEnter 0),
    .file (.openFill 0 false), .file (.openMark 0), .fail 0 none]

theorem truthful_of_fits_failedOpen :
    Truthful .plaintext .spelled
      ((exec (step .plaintext .spelled) (listed none) failedOpen).get rfl) :=
  truthful_of_fits spelled_named (initial_listed none)
    (Option.some_get _).symm (by decide)

/-- While the commit of `[66]` is under way an open with `O_TRUNC` empties the
staging file; the commit lands, and the open fails. -/
def truncatedUnderCommit : List CacheEvent :=
  [.file (.openStart 0 false), .file (.openEnter 0),
    .file (.openFill 0 false), .file (.openMark 0), .file (.openDone 0 1),
    .file (.pwrite 0 0 0 [66]), .file (.writeDone 0), .file .flushLock,
    .file .flushSnapshot, .file (.uploadOk [66]), .file .flushUnlock,
    .file .hubOk, .file (.openStart 1 true), .file (.openEnter 1),
    .file (.openFill 1 false), .file (.openMark 1), .file (.applyCommit 2),
    .fail 1 none]

/-- The poll moves the hash while an encrypted open downloads the old object,
and the open fails. -/
def movedUnderDownload : List CacheEvent :=
  [.file (.openStart 0 false), .encryptedEnter 0, .encryptedFill 0 false,
    .updateRemote (some (ContentStore.spelled.hash [66])) none 1 0 (some 1),
    .encryptedMark 0, .fail 0 none]

/-- A truthful cache of a clean inode that is flagged as current, and that
nobody is changing, stages the object of the hash. -/
theorem staged_of_truthful {format : StagingFormat} {cache : StagingCache}
    (truthful : cache.Truthful format .spelled)
    (state : cache.file.entry.isDirty = false ∧
      cache.file.entry.stagingIsCurrent = true ∧
      cache.file.staging = some 0)
    (quiet : ∀ id, cache.file.op id = none) :
    format.remoteObject .spelled (cache.file.entry.xetHash.getD []) =
      some (cache.file.disk 0) := by
  refine truthful state.1 state.2.1 ?_ 0 state.2.2
  intro id op found
  rw [quiet id] at found
  cases found

theorem flag_not_truthful :
    (¬ ∀ (store : ContentStore) (initial final : StagingCache)
      (events : List CacheEvent), (∀ content, store.hash content ≠ []) →
      initial.Initial →
      exec (step .plaintext store) initial events = some final →
      final.Truthful .plaintext store) ∧
    ¬ ∀ (container : Bytes) (store : ContentStore)
      (initial final : StagingCache) (events : List CacheEvent),
      (∀ content, store.hash content ≠ []) → initial.Initial →
      exec (step (.encrypted container) store) initial events = some final →
      final.Truthful (.encrypted container) store := by
  constructor
  · intro claim
    have truthful := claim .spelled (listed none) _ truncatedUnderCommit
      spelled_named (initial_listed none) rfl
    have staged := staged_of_truthful truthful ⟨rfl, rfl, rfl⟩ (by
      rintro (_ | _ | id) <;> rfl)
    exact absurd staged (by decide)
  · intro claim
    have truthful := claim [0] .spelled (listed (some 1)) _ movedUnderDownload
      spelled_named (initial_listed (some 1)) rfl
    have staged := staged_of_truthful truthful ⟨rfl, rfl, rfl⟩ (by
      rintro (_ | id) <;> rfl)
    exact absurd staged (by decide)

end StagingCache

end HfMount.Flush
