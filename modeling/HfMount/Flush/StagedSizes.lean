import HfMount.Flush.StagedLevels

/-!
# The size of a dirty file

A dirty inode reports the length of its staging file whenever nothing is in
progress, as long as no write meets a size that an update from the remote has
replaced.
-/

namespace HfMount.Flush

open Inode Transition

namespace StagedFile

/-- What an operation that holds the lock relies on. -/
structure OpFits (file : StagedFile) (op : FileOp) : Prop where
  alone : op.rewrites = true → ¬ file.Writing
  kept : op.keeps = true → file.LevelAt file.entry.size
  emptied : op.empties = true → file.stagedLength = some 0
  clean : ∀ hash size, op = .preparing hash size false →
    file.entry.dirtyGeneration = 0
  staged : ∀ newSize changed, op = .truncateReady newSize changed →
    file.staging.isSome = true

structure Uploaded (file : StagedFile) (item : FlushItem) (content : Bytes) :
    Prop where
  item : file.flush.item = some item
  content : file.flush.content = some content

/-- The size of a dirty inode, or of one with writes in progress, is level with
its staging file, and so is the content that a flush is about to commit. -/
structure Leveled (file : StagedFile) : Prop where
  ops : ∀ id op, file.op id = some op → file.OpFits op
  dirty : 0 < file.entry.dirtyGeneration →
    file.LevelAt file.entry.size ∨ file.Cutting
  writing : file.Writing → file.LevelAt file.entry.size
  flushed : ∀ item content, file.Uploaded item content →
    item.dirtyGeneration = file.entry.dirtyGeneration →
    file.LevelAt content.length ∨ file.Cutting

section

variable {before after file : StagedFile} {id : Nat}

theorem opFits_of_free {op : FileOp} (free : op.holdsLock = false) :
    file.OpFits op := by
  have impossible : ∀ {P : Prop}, op.holdsLock = true → P := by
    intro P holds
    rw [free] at holds
    cases holds
  constructor
  · intro rewrites
    exact impossible (FileOp.holdsLock_of_rewrites rewrites)
  · intro keeps
    exact impossible (FileOp.holdsLock_of_keeps keeps)
  · intro empties
    exact impossible (FileOp.holdsLock_of_empties empties)
  · intro hash size preparing
    exact impossible (by rw [preparing]; rfl)
  · intro newSize changed ready
    exact impossible (by rw [ready]; rfl)

/-- Only the operation that holds the lock relies on anything. -/
theorem opsFit_of_holder (locked : StagingCache.Locked file)
    (mine : file.lock = some (.op id))
    (fits : ∀ op, file.op id = some op → file.OpFits op) :
    ∀ other op, file.op other = some op → file.OpFits op := by
  intro other op found
  cases holds : op.holdsLock with
  | false => exact opFits_of_free holds
  | true =>
      have held := locked.op other op found holds
      rw [mine] at held
      cases held
      exact fits op found

theorem opsFit_of_unlocked (locked : StagingCache.Locked file)
    (free : file.lock = none) :
    ∀ id op, file.op id = some op → file.OpFits op := by
  intro id op found
  apply opFits_of_free
  cases holds : op.holdsLock with
  | false => rfl
  | true =>
      have held := locked.op id op found holds
      rw [free] at held
      cases held

theorem not_cutting_of_unlocked (locked : StagingCache.Locked file)
    (free : file.lock = none) : ¬ file.Cutting := by
  rintro ⟨id, op, found, cuts⟩
  have held := locked.op id op found
    (FileOp.holdsLock_of_rewrites (FileOp.rewrites_of_cuts cuts))
  rw [free] at held
  cases held

/-- Sizes, lengths and the writes in progress are what they were. -/
structure SameLevels (before after : StagedFile) : Prop where
  length : after.stagedLength = before.stagedLength
  ends : ∀ newEnd, after.PendingEnd newEnd ↔ before.PendingEnd newEnd
  size : after.entry.size = before.entry.size
  generation : after.entry.dirtyGeneration = before.entry.dirtyGeneration
  cutting : before.Cutting → after.Cutting

theorem SameLevels.level (same : before.SameLevels after) {size : Nat}
    (level : before.LevelAt size) : after.LevelAt size :=
  level.same same.length same.ends

theorem SameLevels.writing (same : before.SameLevels after) :
    after.Writing ↔ before.Writing :=
  exists_congr same.ends

theorem SameLevels.staged (same : before.SameLevels after) :
    after.staging.isSome = before.staging.isSome := by
  have length := congrArg Option.isSome same.length
  simpa only [stagedLength, Option.isSome_map] using length

theorem OpFits.same {op : FileOp} (fits : before.OpFits op)
    (same : before.SameLevels after) : after.OpFits op := by
  constructor
  · intro rewrites
    rw [same.writing]
    exact fits.alone rewrites
  · intro keeps
    rw [same.size]
    exact same.level (fits.kept keeps)
  · intro empties
    rw [same.length]
    exact fits.emptied empties
  · intro hash size preparing
    rw [same.generation]
    exact fits.clean hash size preparing
  · intro newSize changed ready
    rw [same.staged]
    exact fits.staged newSize changed ready

theorem Leveled.same (leveled : Leveled before)
    (same : before.SameLevels after)
    (ops : ∀ id op, after.op id = some op →
      (∃ other, before.op other = some op) ∨ after.OpFits op)
    (flushed : ∀ item content, after.Uploaded item content →
      item.dirtyGeneration = before.entry.dirtyGeneration →
        before.LevelAt content.length ∨ before.Cutting) :
    Leveled after := by
  constructor
  · intro id op found
    rcases ops id op found with ⟨other, earlier⟩ | fits
    · exact (leveled.ops other op earlier).same same
    · exact fits
  · intro dirty
    rw [same.generation] at dirty
    rw [same.size]
    exact (leveled.dirty dirty).imp same.level same.cutting
  · intro writing
    rw [same.size]
    exact same.level (leveled.writing (same.writing.mp writing))
  · intro item content uploaded current
    rw [same.generation] at current
    exact (flushed item content uploaded current).imp same.level same.cutting

/-- A clean inode has nothing to answer for but its writes in progress. -/
theorem leveled_of_clean (tracked : file.Tracked)
    (ops : ∀ id op, file.op id = some op → file.OpFits op)
    (clean : file.entry.dirtyGeneration = 0)
    (writing : file.Writing → file.LevelAt file.entry.size) :
    Leveled file := by
  refine ⟨ops, ?_, writing, ?_⟩
  · intro dirty
    omega
  · intro item content uploaded current
    have positive := (tracked.snapshot item uploaded.item).1
    omega

/-- Marking the inode dirty overtakes the flush, and leaves the size level. -/
theorem leveled_of_passed
    (ops : ∀ id op, file.op id = some op → file.OpFits op)
    (passed : ∀ item, file.flush.item = some item → 0 < item.dirtyGeneration ∧
      item.dirtyGeneration < file.entry.dirtyGeneration)
    (level : file.LevelAt file.entry.size) : Leveled file := by
  refine ⟨ops, fun _ => Or.inl level, fun _ => level, ?_⟩
  intro item content uploaded current
  have earlier := (passed item uploaded.item).2
  omega

/-- An operation is replaced by one that cuts the staging file if it did; no
write is concerned. -/
theorem sameLevels_replace {next : Option FileOp}
    (ops : after.op = Function.update before.op id next)
    (length : after.stagedLength = before.stagedLength)
    (size : after.entry.size = before.entry.size)
    (generation : after.entry.dirtyGeneration = before.entry.dirtyGeneration)
    (old : ∀ newEnd changed, before.op id ≠ some (.writing newEnd changed))
    (new : ∀ newEnd changed, next ≠ some (.writing newEnd changed))
    (cutting : ∀ op, before.op id = some op → op.cuts = true →
      ∃ cut, next = some cut ∧ cut.cuts = true) :
    before.SameLevels after := by
  refine ⟨length, fun newEnd => pendingEnd_replace ops old new, size,
    generation, ?_⟩
  rintro ⟨other, op, found, cuts⟩
  by_cases same : other = id
  · subst same
    obtain ⟨cut, isNext, cuts⟩ := cutting op found cuts
    refine ⟨other, cut, ?_, cuts⟩
    rw [ops, Function.update_self]
    exact isNext
  · refine ⟨other, op, ?_, cuts⟩
    rw [ops, Function.update_of_ne same]
    exact found

/-- After a replacement the other operations are what they were. -/
theorem ops_of_replace {next : Option FileOp}
    (ops : after.op = Function.update before.op id next)
    (fits : ∀ op, next = some op → after.OpFits op) :
    ∀ other op, after.op other = some op →
      (∃ earlier, before.op earlier = some op) ∨ after.OpFits op := by
  intro other op found
  rw [ops] at found
  by_cases same : other = id
  · subst same
    rw [Function.update_self] at found
    exact Or.inr (fits op found)
  · rw [Function.update_of_ne same] at found
    exact Or.inl ⟨other, found⟩

theorem stagedLength_placeFile (file : StagedFile) (replaced : Bool)
    (content : Bytes) :
    (file.placeFile replaced content).stagedLength = some content.length := by
  have placed := congrArg (Option.map List.length)
    (placeFile_content file replaced content)
  rwa [Option.map_map] at placed

/-! ## Opens -/

theorem Leveled.waiting (leveled : Leveled file) {next : Option FileOp}
    (old : ∀ op, file.op id = some op → op.Waits)
    (new : ∀ op, next = some op → op.Waits) :
    Leveled (file.setOp id next) := by
  have same : file.SameLevels (file.setOp id next) := by
    have ops : (file.setOp id next).op = Function.update file.op id next := rfl
    apply sameLevels_replace ops rfl rfl rfl
    · intro newEnd changed found
      exact (old _ found).writes newEnd changed rfl
    · intro newEnd changed found
      exact (new _ found).writes newEnd changed rfl
    · intro op found cuts
      have holds := FileOp.holdsLock_of_rewrites (FileOp.rewrites_of_cuts cuts)
      rw [(old op found).free] at holds
      cases holds
  apply leveled.same same
  · exact ops_of_replace rfl fun op isNext => opFits_of_free (new op isNext).free
  · exact fun item content uploaded =>
      leveled.flushed item content ⟨uploaded.item, uploaded.content⟩

/-- While nobody holds the lock only writes are unsettled. -/
theorem writing_of_unsettled (locked : StagingCache.Locked file)
    (free : file.lock = none) (unsettled : file.Unsettled) : file.Writing := by
  obtain ⟨id, op, found, unsettled⟩ := unsettled
  have held := locked.op id op found
  rw [free] at held
  cases op with
  | writing newEnd changed => exact ⟨newEnd, id, changed, found⟩
  | opening hash size truncate => cases unsettled
  | truncating newSize => cases unsettled
  | preparing hash size truncate => cases held rfl
  | filled hash size truncate => cases held rfl
  | prepared truncate changed => cases held rfl
  | truncateReady newSize changed => cases held rfl

/-- The staging file that an open without `O_TRUNC` reuses ends at the size. -/
theorem Leveled.reusable {store : ContentStore} (leveled : Leveled file)
    (locked : StagingCache.Locked file) (free : file.lock = none)
    (cached : StagingCache.Cached .plaintext store file)
    (sized : Sized store file.entry)
    (reusable : file.canReuseStaging false = true) :
    file.LevelAt file.entry.size := by
  simp only [canReuseStaging, Bool.not_false, Bool.true_and, Bool.and_eq_true,
    Bool.or_eq_true] at reusable
  obtain ⟨valid, isStaged⟩ := reusable
  cases dirty : file.entry.isDirty with
  | true =>
      rcases leveled.dirty (InodeEntry.isDirty_iff.mp dirty) with level | cutting
      · exact level
      · exact absurd cutting (not_cutting_of_unlocked locked free)
  | false =>
      by_cases writing : file.Writing
      · exact leveled.writing writing
      have clean := InodeEntry.isDirty_eq_false_iff.mp dirty
      have flagged : file.entry.stagingIsCurrent = true := by
        simpa [dirty] using valid
      have settled : ¬ file.Unsettled := by
        intro unsettled
        exact writing (writing_of_unsettled locked free unsettled)
      obtain ⟨staged, found⟩ := Option.isSome_iff_exists.mp isStaged
      have object := cached clean flagged settled staged found
      rw [levelAt_iff_of_not_writing writing, sized clean _ object,
        stagedLength, found]
      rfl

theorem leveled_openEnter {store : ContentStore} (leveled : Leveled before)
    (locked : StagingCache.Locked before)
    (cached : StagingCache.Cached .plaintext store before)
    (sized : Sized store before.entry)
    (fits : (∀ hash size truncate, before.op id =
      some (.opening hash size truncate) →
        before.canReuseStaging truncate = true) ∨ ¬ before.Writing)
    (stepped : before.openEnter id = some after) : Leveled after := by
  unfold openEnter at stepped
  split at stepped
  · rename_i hash size truncate opening free
    have old : ∀ newEnd changed,
        before.op id ≠ some (.writing newEnd changed) := by
      intro newEnd changed writing
      rw [opening] at writing
      cases writing
    have uncut : ∀ {next : Option FileOp} op, before.op id = some op →
        op.cuts = true → ∃ cut, next = some cut ∧ cut.cuts = true := by
      intro next op found cuts
      rw [opening] at found
      cases found
      cases cuts
    split at stepped <;> rename_i reusable <;>
      obtain rfl := Option.some.inj stepped
    · have kept : truncate = false := by
        cases truncate with
        | false => rfl
        | true => cases reusable
      subst kept
      have level := leveled.reusable locked free cached sized reusable
      have same : before.SameLevels
          { before.setOp id (some (.prepared false false)) with
            lock := some (.op id) } :=
        sameLevels_replace rfl rfl rfl rfl old (by rintro _ _ ⟨⟩) uncut
      apply leveled.same same
      · apply ops_of_replace rfl
        rintro op ⟨⟩
        refine ⟨by rintro ⟨⟩, fun _ => same.level level, by rintro ⟨⟩, ?_, ?_⟩
        · rintro _ _ ⟨⟩
        · rintro _ _ ⟨⟩
      · exact fun item content uploaded =>
          leveled.flushed item content ⟨uploaded.item, uploaded.content⟩
    · have alone : ¬ before.Writing := by
        apply fits.resolve_left
        intro reuses
        exact reusable (reuses hash size truncate opening)
      have same : before.SameLevels
          { before.setOp id (some (.preparing hash size truncate)) with
            lock := some (.op id)
            entry := { before.entry with stagingIsCurrent := false } } :=
        sameLevels_replace rfl rfl rfl rfl old (by rintro _ _ ⟨⟩) uncut
      apply leveled.same same
      · apply ops_of_replace rfl
        rintro op ⟨⟩
        refine ⟨fun _ => same.writing.not.mpr alone, by rintro ⟨⟩,
          by rintro ⟨⟩, ?_, by rintro _ _ ⟨⟩⟩
        rintro _ _ ⟨⟩
        -- a dirty inode without a cut is staged, and its open reuses that
        by_contra dirty
        have positive : 0 < before.entry.dirtyGeneration :=
          Nat.pos_of_ne_zero dirty
        rcases leveled.dirty positive with level | cutting
        · obtain ⟨staged, found⟩ := level.staged
          simp [canReuseStaging, InodeEntry.isDirty_iff.mpr positive, found]
            at reusable
        · exact not_cutting_of_unlocked locked free cutting
      · exact fun item content uploaded =>
          leveled.flushed item content ⟨uploaded.item, uploaded.content⟩
  · cases stepped

theorem not_writing_of_replace {next : Option FileOp}
    (ops : after.op = Function.update before.op id next)
    (old : ∀ newEnd changed, before.op id ≠ some (.writing newEnd changed))
    (new : ∀ newEnd changed, next ≠ some (.writing newEnd changed))
    (alone : ¬ before.Writing) : ¬ after.Writing := by
  rintro ⟨newEnd, pending⟩
  exact alone ⟨newEnd, (pendingEnd_replace ops old new).mp pending⟩

/-- The staging file of a clean inode has been filled with its object. -/
theorem leveled_of_filled {hash : Hash} {size : Nat}
    (locked : StagingCache.Locked after) (tracked : after.Tracked)
    (mine : after.lock = some (.op id))
    (filled : after.op id = some (.filled hash size false))
    (alone : ¬ after.Writing) (clean : after.entry.dirtyGeneration = 0)
    (length : after.stagedLength = some after.entry.size) : Leveled after := by
  have level := (levelAt_iff_of_not_writing alone).mpr length
  apply leveled_of_clean tracked _ clean fun _ => level
  apply opsFit_of_holder locked mine
  intro op found
  obtain rfl := Option.some.inj (filled.symm.trans found)
  exact ⟨fun _ => alone, fun _ => level, by rintro ⟨⟩, by rintro _ _ ⟨⟩,
    by rintro _ _ ⟨⟩⟩

/-- An open with `O_TRUNC` has emptied the staging file. -/
theorem leveled_of_emptied {hash : Hash} {size : Nat}
    (locked : StagingCache.Locked after) (mine : after.lock = some (.op id))
    (filled : after.op id = some (.filled hash size true))
    (alone : ¬ after.Writing) (length : after.stagedLength = some 0) :
    Leveled after := by
  have cutting : after.Cutting := ⟨id, _, filled, rfl⟩
  refine ⟨?_, fun _ => Or.inr cutting, fun writing => absurd writing alone,
    fun _ _ _ _ => Or.inr cutting⟩
  apply opsFit_of_holder locked mine
  intro op found
  obtain rfl := Option.some.inj (filled.symm.trans found)
  exact ⟨fun _ => alone, by rintro ⟨⟩, fun _ => length, by rintro _ _ ⟨⟩,
    by rintro _ _ ⟨⟩⟩

/-- The object of the inode has the size that the open has read. -/
theorem Sized.downloaded {store : ContentStore} {entry : InodeEntry}
    (sized : Sized store entry) (clean : entry.dirtyGeneration = 0)
    {content : Bytes} {truncate : Bool}
    (needed : needsDownload (entry.xetHash.getD []) entry.size truncate = true)
    (fetched : store.fetch (entry.xetHash.getD []) = some content) :
    entry.size = content.length :=
  sized clean content ((StagingCache.remoteObject_fetched needed).trans fetched)

/-- What needs no download is empty. -/
theorem Sized.empty {store : ContentStore} {entry : InodeEntry}
    (sized : Sized store entry) (clean : entry.dirtyGeneration = 0)
    (needless :
      needsDownload (entry.xetHash.getD []) entry.size false = false) :
    entry.size = 0 := by
  cases unnamed : (entry.xetHash.getD []).isEmpty with
  | true =>
      apply sized clean []
      rw [StagingFormat.remoteObject, unnamed]
      rfl
  | false => simpa [needsDownload, unnamed] using needless

theorem leveled_openFill {store : ContentStore} {replaced : Bool}
    (leveled : Leveled before) (locked : StagingCache.Locked before)
    (lockedAfter : StagingCache.Locked after) (tracked : after.Tracked)
    (sized : Sized store before.entry)
    (fits : ∀ hash size, before.op id = some (.preparing hash size false) →
      before.entry.xetHash.getD [] = hash ∧ before.entry.size = size)
    (stepped : before.openFill store id replaced = some after) :
    Leveled after := by
  unfold openFill at stepped
  split at stepped
  · rename_i hash size truncate preparing
    have relies := leveled.ops id _ preparing
    have mine := locked.op id _ preparing rfl
    have old : ∀ newEnd changed,
        before.op id ≠ some (.writing newEnd changed) := by
      intro newEnd changed writing
      rw [preparing] at writing
      cases writing
    have alone : ∀ place content, ¬ ((before.placeFile place content).setOp id
        (some (.filled hash size truncate))).Writing := by
      intro place content
      exact not_writing_of_replace
        (StagingCache.placed_op before place content id _) old
        (by rintro _ _ ⟨⟩) (relies.alone rfl)
    have held : ∀ place content, ((before.placeFile place content).setOp id
        (some (.filled hash size truncate))).lock = some (.op id) := by
      intro place content
      simp only [setOp, StagingCache.placeFile_lock]
      exact mine
    have entry : ∀ place content, ((before.placeFile place content).setOp id
        (some (.filled hash size truncate))).entry = before.entry := by
      intro place content
      exact before.placeFile_entry place content
    have length : ∀ place content, ((before.placeFile place content).setOp id
        (some (.filled hash size truncate))).stagedLength =
          some content.length :=
      fun place content => before.stagedLength_placeFile place content
    split at stepped <;> rename_i needed
    · split at stepped <;> rename_i fetched <;>
        obtain rfl := Option.some.inj stepped
      · cases truncate with
        | true => cases needed
        | false =>
            have clean := relies.clean hash size rfl
            obtain ⟨rfl, rfl⟩ := fits hash size preparing
            apply leveled_of_filled lockedAfter tracked (held _ _)
              (Function.update_self _ _ _) (alone _ _)
            · rw [entry]
              exact clean
            · rw [entry, length, sized.downloaded clean needed fetched]
      · have ops : (before.finishOp id).op =
            Function.update before.op id none := rfl
        apply leveled.same
        · apply sameLevels_replace ops rfl rfl rfl old (by rintro _ _ ⟨⟩)
          intro op found cuts
          obtain rfl := Option.some.inj (preparing.symm.trans found)
          cases cuts
        · exact ops_of_replace ops (by rintro _ ⟨⟩)
        · exact fun item content uploaded =>
            leveled.flushed item content ⟨uploaded.item, uploaded.content⟩
    · obtain rfl := Option.some.inj stepped
      cases truncate with
      | true =>
          exact leveled_of_emptied lockedAfter (held _ _)
            (Function.update_self _ _ _) (alone _ _) (length _ _)
      | false =>
          have clean := relies.clean hash size rfl
          obtain ⟨rfl, rfl⟩ := fits hash size preparing
          apply leveled_of_filled lockedAfter tracked (held _ _)
            (Function.update_self _ _ _) (alone _ _)
          · rw [entry]
            exact clean
          · rw [entry, length, sized.empty clean (by simpa using needed)]
            rfl
  · cases stepped

theorem leveled_openMark (leveled : Leveled before)
    (stepped : before.openMark id = some after) : Leveled after := by
  unfold openMark at stepped
  split at stepped
  · rename_i hash size truncate filled
    obtain rfl := Option.some.inj stepped
    have relies := leveled.ops id _ filled
    have same : before.SameLevels
        { before.setOp id (some (.prepared truncate true)) with
          entry := markedEntry before.entry hash size truncate } := by
      refine sameLevels_replace rfl rfl ?_ ?_ ?_ ?_ ?_
      · exact markedEntry_size before.entry hash size truncate
      · exact markedEntry_generation before.entry hash size truncate
      · intro newEnd changed writing
        rw [filled] at writing
        cases writing
      · rintro _ _ ⟨⟩
      · intro op found cuts
        obtain rfl := Option.some.inj (filled.symm.trans found)
        refine ⟨_, rfl, ?_⟩
        simpa [FileOp.cuts] using cuts
    apply leveled.same same
    · apply ops_of_replace rfl
      rintro op ⟨⟩
      refine ⟨?_, ?_, ?_, by rintro _ _ ⟨⟩, by rintro _ _ ⟨⟩⟩
      · intro _
        rw [same.writing]
        exact relies.alone rfl
      · intro keeps
        rw [same.size]
        exact same.level (relies.kept keeps)
      · intro empties
        rw [same.length]
        exact relies.emptied empties
    · exact fun item content uploaded =>
        leveled.flushed item content ⟨uploaded.item, uploaded.content⟩
  · cases stepped

theorem leveled_openDone {now : Time} (leveled : Leveled before)
    (lockedAfter : StagingCache.Locked after) (tracked : before.Tracked)
    (moves : ∀ item, before.flush.item = some item →
      item.dirtyGeneration < u64Max)
    (stepped : before.openDone id now = some after) : Leveled after := by
  have old : ∀ {truncate changed}, before.op id =
      some (.prepared truncate changed) → ∀ newEnd changed,
        before.op id ≠ some (.writing newEnd changed) := by
    intro truncate changed prepared newEnd changed writing
    rw [prepared] at writing
    cases writing
  unfold openDone at stepped
  split at stepped
  · rename_i truncate changed opened prepared isStaged
    obtain rfl := Option.some.inj stepped
    have relies := leveled.ops id _ prepared
    apply leveled_of_passed (opsFit_of_unlocked lockedAfter rfl)
    · exact tracked.passed ⟨Or.inl rfl, rfl⟩ rfl rfl moves
    cases truncate with
    | true =>
        rw [levelAt_iff_of_not_writing]
        · exact relies.emptied rfl
        · exact not_writing_of_replace rfl (old prepared) (by rintro _ _ ⟨⟩)
            (relies.alone rfl)
    | false =>
        refine (relies.kept rfl).same rfl ?_
        intro newEnd
        exact pendingEnd_replace rfl (old prepared) (by rintro _ _ ⟨⟩)
  · -- nobody removes the staging file of an open that has prepared it
    rename_i truncate changed prepared absent
    have relies := leveled.ops id _ prepared
    cases truncate with
    | true =>
        have empty := relies.emptied rfl
        rw [stagedLength, absent] at empty
        cases empty
    | false =>
        obtain ⟨staged, found⟩ := (relies.kept rfl).staged
        rw [absent] at found
        cases found
  · cases stepped

/-! ## Truncations -/

/-- While nobody holds the lock, an inode without a staging file is clean. -/
theorem Leveled.clean_of_unstaged (leveled : Leveled file)
    (locked : StagingCache.Locked file) (free : file.lock = none)
    (absent : file.staging = none) : file.entry.dirtyGeneration = 0 := by
  by_contra dirty
  rcases leveled.dirty (Nat.pos_of_ne_zero dirty) with level | cutting
  · obtain ⟨staged, found⟩ := level.staged
    rw [absent] at found
    cases found
  · exact not_cutting_of_unlocked locked free cutting

theorem leveled_setattrEnter {store : ContentStore} (leveled : Leveled before)
    (locked : StagingCache.Locked before)
    (lockedAfter : StagingCache.Locked after) (tracked : after.Tracked)
    (alone : ¬ before.Writing)
    (stepped : before.setattrEnter store id = some after) :
    Leveled after := by
  unfold setattrEnter at stepped
  split at stepped
  · rename_i newSize truncating free
    have old : ∀ newEnd changed,
        before.op id ≠ some (.writing newEnd changed) := by
      intro newEnd changed writing
      rw [truncating] at writing
      cases writing
    have waits : (FileOp.truncating newSize).Waits :=
      ⟨rfl, by rintro _ _ ⟨⟩⟩
    have filled : ∀ place content, before.staging = none →
        after = { (before.placeFile place content).setOp id
            (some (.truncateReady newSize true)) with
          lock := some (.op id) } → Leveled after := by
      rintro place content absent rfl
      have clean : (before.placeFile place content).entry.dirtyGeneration =
          0 := by
        rw [placeFile_entry]
        exact leveled.clean_of_unstaged locked free absent
      have length := before.stagedLength_placeFile place content
      have ops := StagingCache.placed_op before place content id
        (some (.truncateReady newSize true))
      have still := not_writing_of_replace ops old (by rintro _ _ ⟨⟩) alone
      apply leveled_of_clean tracked _ clean fun writing =>
        absurd writing still
      apply opsFit_of_holder lockedAfter rfl
      intro op found
      dsimp only at found
      rw [ops, Function.update_self] at found
      obtain rfl := Option.some.inj found
      refine ⟨fun _ => still, by rintro ⟨⟩, by rintro ⟨⟩, by rintro _ _ ⟨⟩, ?_⟩
      intro _ _ _
      have isStaged := congrArg Option.isSome length
      rwa [stagedLength, Option.isSome_map] at isStaged
    dsimp only at stepped
    split at stepped <;> rename_i isStaged
    · obtain rfl := Option.some.inj stepped
      have same : before.SameLevels
          { before.setOp id (some (.truncateReady newSize false)) with
            lock := some (.op id) } := by
        refine sameLevels_replace rfl rfl rfl rfl old (by rintro _ _ ⟨⟩) ?_
        intro op found cuts
        obtain rfl := Option.some.inj (truncating.symm.trans found)
        cases cuts
      apply leveled.same same
      · apply ops_of_replace rfl
        rintro op ⟨⟩
        refine ⟨fun _ => same.writing.not.mpr alone, by rintro ⟨⟩,
          by rintro ⟨⟩, by rintro _ _ ⟨⟩, ?_⟩
        intro _ _ _
        exact isStaged
      · exact fun item content uploaded =>
          leveled.flushed item content ⟨uploaded.item, uploaded.content⟩
    have absent : before.staging = none := by simpa using isStaged
    split at stepped
    · split at stepped
      · exact filled _ _ absent (Option.some.inj stepped).symm
      · obtain rfl := Option.some.inj stepped
        apply leveled.waiting
        · intro op found
          obtain rfl := Option.some.inj (truncating.symm.trans found)
          exact waits
        · rintro op ⟨⟩
    · exact filled _ _ absent (Option.some.inj stepped).symm
  · cases stepped

theorem leveled_setattrApply {now : Time} (leveled : Leveled before)
    (lockedAfter : StagingCache.Locked after) (tracked : before.Tracked)
    (moves : ∀ item, before.flush.item = some item →
      item.dirtyGeneration < u64Max)
    (stepped : before.setattrApply id now = some after) : Leveled after := by
  unfold setattrApply at stepped
  split at stepped
  · rename_i newSize changed staged ready isStaged
    obtain rfl := Option.some.inj stepped
    have relies := leveled.ops id _ ready
    apply leveled_of_passed (opsFit_of_unlocked lockedAfter rfl)
    · exact tracked.passed (before.placeFile_sameFlush false _) rfl rfl moves
    rw [levelAt_iff_of_not_writing]
    · refine (before.stagedLength_placeFile false _).trans ?_
      split <;> rename_i whole
      · exact congrArg some whole.symm
      · exact congrArg some (length_setLen _ newSize)
    · refine not_writing_of_replace
        (StagingCache.placed_op before false _ id none) ?_ (by rintro _ _ ⟨⟩)
        (relies.alone rfl)
      intro newEnd changed writing
      rw [ready] at writing
      cases writing
  · rename_i newSize changed ready absent
    have isStaged := (leveled.ops id _ ready).staged newSize changed rfl
    rw [absent] at isStaged
    cases isStaged
  · cases stepped

/-! ## Writes -/

theorem opFits_of_not_rewriting {op : FileOp} (plain : op.rewrites = false)
    (kept : op.keeps = true → file.LevelAt file.entry.size) :
    file.OpFits op := by
  have impossible : ∀ {P : Prop}, op.rewrites = true → P := by
    intro P rewrites
    rw [plain] at rewrites
    cases rewrites
  constructor
  · intro rewrites
    exact impossible rewrites
  · exact kept
  · intro empties
    exact impossible (FileOp.rewrites_of_empties empties)
  · intro hash size preparing
    exact impossible (by rw [preparing]; rfl)
  · intro newSize changed ready
    exact impossible (by rw [ready]; rfl)

/-- The write goes to the staging file, or ends inside of it. -/
def WriteReaches (file : StagedFile) (handle offset : Nat) (data : Bytes) :
    Prop :=
  file.staging = some handle ∧ data ≠ [] ∨
    ∀ length, file.stagedLength = some length → offset + data.length ≤ length

/-- The staging file grows to the end of the write. -/
theorem stagedLength_write {handle offset length : Nat} {data : Bytes}
    (reaches : before.WriteReaches handle offset data)
    (staging : after.staging = before.staging)
    (disk : after.disk = Function.update before.disk handle
      (writeAt (before.disk handle) offset data))
    (found : before.stagedLength = some length) :
    after.stagedLength = some (max length (offset + data.length)) := by
  obtain ⟨staged, isStaged, rfl⟩ := Option.map_eq_some_iff.mp found
  rw [stagedLength, staging, isStaged, disk]
  by_cases here : staged = handle
  · subst here
    simp only [Option.map_some, Function.update_self]
    rcases reaches with ⟨_, nonempty⟩ | inside
    · rw [length_writeAt _ _ nonempty]
    · rw [length_writeAt_inside (inside _ found),
        Nat.max_eq_left (inside _ found)]
  · simp only [Option.map_some, Function.update_of_ne here]
    rcases reaches with ⟨same, _⟩ | inside
    · rw [isStaged] at same
      exact absurd (Option.some.inj same) here
    · rw [Nat.max_eq_left (inside _ found)]

/-- The size that a write finds is level with the staging file. -/
def SizeKnown (file : StagedFile) : Prop :=
  file.entry.isDirty = true ∨ file.stagedLength = some file.entry.size ∨
    file.Writing

theorem Leveled.level_of_known (leveled : Leveled file)
    (uncut : ¬ file.Cutting) (known : file.SizeKnown) :
    file.LevelAt file.entry.size := by
  rcases known with dirty | staged | writing
  · exact (leveled.dirty (InodeEntry.isDirty_iff.mp dirty)).resolve_right uncut
  · by_cases writing : file.Writing
    · exact leveled.writing writing
    · exact (levelAt_iff_of_not_writing writing).mpr staged
  · exact leveled.writing writing

theorem leveled_pwrite {handle offset : Nat} {data : Bytes}
    (leveled : Leveled before)
    (calm : ∀ id op, before.op id = some op → op.rewrites = false)
    (known : before.SizeKnown)
    (reaches : before.WriteReaches handle offset data)
    (stepped : before.pwrite id handle offset data = some after) :
    Leveled after := by
  have uncut : ¬ before.Cutting := by
    rintro ⟨id, op, found, cuts⟩
    have rewrites := FileOp.rewrites_of_cuts cuts
    rw [calm id op found] at rewrites
    cases rewrites
  have level := leveled.level_of_known uncut known
  unfold pwrite at stepped
  split at stepped <;> rename_i absent
  · split at stepped
    · obtain rfl := Option.some.inj stepped
      have begins : ∀ {size}, before.LevelAt size → LevelAt
          { before.setOp id (some (.writing (offset + data.length)
              (before.staging == some handle))) with
            disk := Function.update before.disk handle
              (writeAt (before.disk handle) offset data)
            flush := if before.staging == some handle then
              before.flush.disturb else before.flush } size := by
        intro size level
        refine level.begin ?_ fun length found =>
          stagedLength_write reaches rfl rfl found
        intro other
        exact pendingEnd_begin rfl absent
      constructor
      · intro other op found
        rcases ops_of_replace rfl (fun op isNext => opFits_of_free
            (by obtain rfl := Option.some.inj isNext; rfl)) other op found with
          ⟨earlier, foundEarlier⟩ | fits
        · apply opFits_of_not_rewriting (calm earlier op foundEarlier)
          intro keeps
          exact begins ((leveled.ops earlier op foundEarlier).kept keeps)
        · exact fits
      · exact fun _ => Or.inl (begins level)
      · exact fun _ => begins level
      · intro item content uploaded current
        have earlier : before.Uploaded item content := by
          obtain ⟨running, read⟩ := uploaded
          dsimp only at running read
          split at running <;> rename_i staged
          · rw [if_pos staged, disturb_content] at read
            rw [disturb_item] at running
            exact ⟨running, read⟩
          · rw [if_neg staged] at read
            exact ⟨running, read⟩
        exact Or.inl (begins ((leveled.flushed item content earlier
          current).resolve_right uncut))
    · cases stepped
  · cases stepped

theorem leveled_writeDone (leveled : Leveled before) (tracked : before.Tracked)
    (moves : ∀ item, before.flush.item = some item →
      item.dirtyGeneration < u64Max)
    (stepped : before.writeDone id = some after) : Leveled after := by
  unfold writeDone at stepped
  split at stepped
  · rename_i newEnd changed running
    obtain rfl := Option.some.inj stepped
    have pending : before.PendingEnd newEnd := ⟨id, changed, running⟩
    have writing : before.Writing := ⟨newEnd, pending⟩
    have recorded : ∀ {size}, before.LevelAt size → LevelAt
        { before.setOp id none with
          entry := InodeEntry.setDirty { before.entry with
            size := max before.entry.size newEnd } } (max size newEnd) := by
      intro size level
      refine level.record pending ?_ ?_ rfl
      · exact fun other => pendingEnd_of_done rfl
      · exact fun other => pendingEnd_done rfl running
    apply leveled_of_passed
    · intro other op found
      rcases ops_of_replace rfl (by rintro _ ⟨⟩) other op found with
        ⟨earlier, foundEarlier⟩ | fits
      · have relies := leveled.ops earlier op foundEarlier
        apply opFits_of_not_rewriting
        · cases rewrites : op.rewrites with
          | false => rfl
          | true => exact absurd writing (relies.alone rewrites)
        · exact fun keeps => recorded (relies.kept keeps)
      · exact fits
    · exact tracked.passed ⟨Or.inl rfl, rfl⟩ rfl rfl moves
    · exact recorded (leveled.writing writing)
  · cases stepped

end

end StagedFile

end HfMount.Flush
