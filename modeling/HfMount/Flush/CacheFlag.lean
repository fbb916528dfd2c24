import HfMount.Flush.StagingCache

/-!
# The cache flag is truthful

The flag of a clean inode vouches for the staging file.  Effects carry this
through the steps; an operation that fails needs more, namely what it has put
into the staging file before it failed.
-/

namespace HfMount.Flush

open Inode Transition

namespace StagingCache

/-! ## What the holder of the lock has placed -/

/-- A write has changed the staging file since, or is about to be
recorded. -/
def Overwritten (file : StagedFile) : Prop :=
  (∃ id op, file.op id = some op ∧ op.holdsLock = false ∧
    op.changed = true) ∨
  0 < file.entry.dirtyGeneration ∧ ∀ item, file.flush.item = some item →
    item.dirtyGeneration < file.entry.dirtyGeneration

/-- Something is placed exactly while the holder of the lock has changed the
staging file, and an object that is placed is what is staged unless it was
overwritten. -/
structure PlacedRight (format : StagingFormat) (store : ContentStore)
    (cache : StagingCache) : Prop where
  holder : ∀ source, cache.placed = some source → ∃ id op,
    cache.file.op id = some op ∧ op.holdsLock = true ∧ op.changed = true
  changed : ∀ id op, cache.file.op id = some op → op.holdsLock = true →
    op.changed = true → cache.placed.isSome = true
  content : ∀ hash, cache.placed = some (some hash) →
    Overwritten cache.file ∨ ∀ staged, cache.file.staging = some staged →
      format.remoteObject store hash = some (cache.file.disk staged)

section

variable {format : StagingFormat} {store : ContentStore}
  {before after : StagingCache}

theorem PlacedRight.unplaced (right : PlacedRight format store before)
    (locked : Locked before.file)
    (free : ∀ id, before.file.lock ≠ some (.op id)) :
    before.placed = none := by
  cases placed : before.placed with
  | none => rfl
  | some source =>
      obtain ⟨id, op, found, holds, _⟩ := right.holder source placed
      exact absurd (locked.op id op found holds) (free id)

/-- Nothing is placed, and no operation under the lock has changed
anything. -/
theorem placedRight_of_none (unplaced : after.placed = none)
    (unchanged : ∀ id op, after.file.op id = some op → op.holdsLock = true →
      op.changed = false) : PlacedRight format store after := by
  refine ⟨?_, ?_, ?_⟩
  · intro source placed
    rw [unplaced] at placed
    cases placed
  · intro id op found holds changed
    rw [unchanged id op found holds] at changed
    cases changed
  · intro hash placed
    rw [unplaced] at placed
    cases placed

theorem PlacedRight.unchanged (right : PlacedRight format store before)
    (unplaced : before.placed = none) {id : Nat} {op : FileOp}
    (found : before.file.op id = some op) (holds : op.holdsLock = true) :
    op.changed = false := by
  cases changed : op.changed with
  | false => rfl
  | true =>
      have placed := right.changed id op found holds changed
      rw [unplaced] at placed
      cases placed

/-- Nothing was placed, and one operation goes on that has not changed
anything. -/
theorem PlacedRight.replace_none (right : PlacedRight format store before)
    (unplaced : before.placed = none) (same : after.placed = none) {id : Nat}
    {next : Option FileOp}
    (ops : after.file.op = Function.update before.file.op id next)
    (harmless : ∀ op, next = some op → op.holdsLock = true →
      op.changed = false) : PlacedRight format store after := by
  apply placedRight_of_none same
  intro other op found holds
  rw [ops] at found
  by_cases here : other = id
  · rw [here, Function.update_self] at found
    exact harmless op found holds
  · rw [Function.update_of_ne here] at found
    exact right.unchanged unplaced found holds

/-- Nothing was placed, and the operations are what they were. -/
theorem PlacedRight.same_none (right : PlacedRight format store before)
    (unplaced : before.placed = none) (same : after.placed = none)
    (ops : after.file.op = before.file.op) :
    PlacedRight format store after := by
  apply placedRight_of_none same
  intro id op found holds
  exact right.unchanged unplaced (ops ▸ found) holds

/-- The staging file is what it was, and no new flush has begun. -/
structure SameStaged (before after : StagedFile) : Prop where
  generation : after.entry.dirtyGeneration = before.entry.dirtyGeneration
  staging : after.staging = before.staging
  disk : ∀ staged, before.staging = some staged →
    after.disk staged = before.disk staged
  items : ∀ item, after.flush.item = some item →
    before.flush.item = some item

/-- One operation goes on that has changed nothing under the lock. -/
theorem PlacedRight.replace (right : PlacedRight format store before)
    (placed : after.placed = before.placed) {id : Nat}
    {next : Option FileOp}
    (ops : after.file.op = Function.update before.file.op id next)
    (old : ∀ op, before.file.op id = some op → op.holdsLock = true →
      op.changed = false)
    (harmless : ∀ op, next = some op → op.holdsLock = true →
      op.changed = false)
    (staged : Overwritten after.file ∨ SameStaged before.file after.file ∧
      ∀ op, before.file.op id = some op → op.changed = false) :
    PlacedRight format store after := by
  refine ⟨?_, ?_, ?_⟩
  · intro source isPlaced
    obtain ⟨other, op, found, holds, changed⟩ :=
      right.holder source (placed ▸ isPlaced)
    refine ⟨other, op, ?_, holds, changed⟩
    have distinct : other ≠ id := by
      rintro rfl
      rw [old op found holds] at changed
      cases changed
    rw [ops, Function.update_of_ne distinct]
    exact found
  · intro other op found holds changed
    rw [placed]
    rw [ops] at found
    by_cases here : other = id
    · rw [here, Function.update_self] at found
      rw [harmless op found holds] at changed
      cases changed
    · rw [Function.update_of_ne here] at found
      exact right.changed other op found holds changed
  · intro hash isPlaced
    rcases staged with isOver | ⟨staged, unchanged⟩
    · exact Or.inl isOver
    rcases right.content hash (placed ▸ isPlaced) with
      (⟨other, op, found, holds, changed⟩ | ⟨dirty, passed⟩) | same
    · refine Or.inl (Or.inl ⟨other, op, ?_, holds, changed⟩)
      have distinct : other ≠ id := by
        rintro rfl
        rw [unchanged op found] at changed
        cases changed
      rw [ops, Function.update_of_ne distinct]
      exact found
    · left
      right
      rw [staged.generation]
      exact ⟨dirty, fun item running => passed item (staged.items item running)⟩
    · right
      intro number found
      rw [staged.staging] at found
      rw [staged.disk number found]
      exact same number found

/-- The operations and the staging file are what they were. -/
theorem PlacedRight.sameOps (right : PlacedRight format store before)
    (placed : after.placed = before.placed)
    (ops : after.file.op = before.file.op)
    (content : ∀ hash, before.placed = some (some hash) →
      Overwritten after.file ∨ (Overwritten before.file →
        Overwritten after.file) ∧ after.file.staging = before.file.staging ∧
        ∀ staged, before.file.staging = some staged →
          after.file.disk staged = before.file.disk staged) :
    PlacedRight format store after := by
  refine ⟨?_, ?_, ?_⟩
  · intro source isPlaced
    obtain ⟨id, op, found, holds, changed⟩ :=
      right.holder source (placed ▸ isPlaced)
    exact ⟨id, op, ops ▸ found, holds, changed⟩
  · intro id op found holds changed
    rw [placed]
    exact right.changed id op (ops ▸ found) holds changed
  · intro hash isPlaced
    rw [placed] at isPlaced
    rcases content hash isPlaced with isOver | ⟨overwritten, staging, disk⟩
    · exact Or.inl isOver
    · refine (right.content hash isPlaced).imp overwritten ?_
      intro same staged found
      rw [staging] at found
      rw [disk staged found]
      exact same staged found

theorem Overwritten.sameStaged {before after : StagedFile}
    (isOver : Overwritten before) (ops : after.op = before.op)
    (staged : SameStaged before after) : Overwritten after := by
  rcases isOver with ⟨id, op, found, holds, changed⟩ | ⟨dirty, passed⟩
  · exact Or.inl ⟨id, op, ops ▸ found, holds, changed⟩
  · right
    rw [staged.generation]
    exact ⟨dirty, fun item running => passed item (staged.items item running)⟩

end

/-- The holder of the lock goes on. -/
theorem PlacedRight.goesOn {format : StagingFormat} {store : ContentStore}
    {before after : StagingCache} (right : PlacedRight format store before)
    (placed : after.placed = before.placed) {id : Nat} {old next : FileOp}
    (found : before.file.op id = some old)
    (oldHolds : old.holdsLock = true) (oldChanged : old.changed = true)
    (ops : after.file.op = Function.update before.file.op id (some next))
    (holds : next.holdsLock = true) (changed : next.changed = true)
    (staged : SameStaged before.file after.file) :
    PlacedRight format store after := by
  refine ⟨?_, ?_, ?_⟩
  · intro source _
    exact ⟨id, next, by rw [ops, Function.update_self], holds, changed⟩
  · intro other op foundOther otherHolds otherChanged
    rw [placed]
    exact right.changed id old found oldHolds oldChanged
  · intro hash isPlaced
    rcases right.content hash (placed ▸ isPlaced) with
      (⟨other, op, foundOther, free, otherChanged⟩ | ⟨dirty, passed⟩) | same
    · refine Or.inl (Or.inl ⟨other, op, ?_, free, otherChanged⟩)
      have distinct : other ≠ id := by
        rintro rfl
        obtain rfl := Option.some.inj (found.symm.trans foundOther)
        rw [oldHolds] at free
        cases free
      rw [ops, Function.update_of_ne distinct]
      exact foundOther
    · left
      right
      rw [staged.generation]
      exact ⟨dirty, fun item running => passed item (staged.items item running)⟩
    · right
      intro number foundNumber
      rw [staged.staging] at foundNumber
      rw [staged.disk number foundNumber]
      exact same number foundNumber

/-- The holder of the lock is done. -/
theorem placedRight_of_finished {format : StagingFormat}
    {store : ContentStore} {before after : StagingCache}
    (locked : Locked before.file) {id : Nat} {old : FileOp}
    (found : before.file.op id = some old) (holds : old.holdsLock = true)
    (ops : after.file.op = Function.update before.file.op id none)
    (unplaced : after.placed = none) : PlacedRight format store after := by
  apply placedRight_of_none unplaced
  intro other op foundOther otherHolds
  rw [ops] at foundOther
  by_cases same : other = id
  · rw [same, Function.update_self] at foundOther
    cases foundOther
  · rw [Function.update_of_ne same] at foundOther
    have mine := locked.op id old found holds
    rw [locked.op other op foundOther otherHolds] at mine
    cases mine
    exact absurd rfl same

/-- The holder of the lock places an object. -/
theorem PlacedRight.filled {format : StagingFormat} {store : ContentStore}
    {before after : StagingCache} {id : Nat} {next : FileOp}
    (ops : after.file.op = Function.update before.file.op id (some next))
    (holds : next.holdsLock = true) (changed : next.changed = true)
    {hash : Hash} {content : Bytes} (placed : after.placed = some (some hash))
    (object : format.remoteObject store hash = some content)
    (staged : ∀ number, after.file.staging = some number →
      after.file.disk number = content) : PlacedRight format store after := by
  refine ⟨?_, ?_, ?_⟩
  · intro source _
    exact ⟨id, next, by rw [ops, Function.update_self], holds, changed⟩
  · intro _ _ _ _ _
    rw [placed]
    rfl
  · intro other isPlaced
    rw [placed] at isPlaced
    obtain rfl := Option.some.inj (Option.some.inj isPlaced)
    right
    intro number found
    rw [object, staged number found]

/-- Nothing is placed while the holder of the lock has changed nothing. -/
theorem PlacedRight.unplaced_of_holder {format : StagingFormat}
    {store : ContentStore} {cache : StagingCache}
    (right : PlacedRight format store cache) (locked : Locked cache.file)
    {id : Nat} {op : FileOp} (found : cache.file.op id = some op)
    (holds : op.holdsLock = true) (harmless : op.changed = false) :
    cache.placed = none := by
  cases placed : cache.placed with
  | none => rfl
  | some source =>
      obtain ⟨other, otherOp, foundOther, otherHolds, changed⟩ :=
        right.holder source placed
      have mine := locked.op id op found holds
      rw [locked.op other otherOp foundOther otherHolds] at mine
      cases mine
      obtain rfl := Option.some.inj (found.symm.trans foundOther)
      rw [harmless] at changed
      cases changed

/-! ## The steps of a staged file -/

section

variable {format : StagingFormat} {store : ContentStore}
  {cache : StagingCache} {file : StagedFile}

theorem placedBy_fetched {hash : Hash} {size : Nat} {truncate : Bool}
    {content : Bytes} (needed : needsDownload hash size truncate = true)
    (fetched : store.fetch hash = some content) :
    placedBy store hash size truncate = some (some hash) := by
  simp [placedBy, needed, fetched]

theorem placedBy_missing {hash : Hash} {size : Nat} {truncate : Bool}
    (needed : needsDownload hash size truncate = true)
    (missing : store.fetch hash = none) :
    placedBy store hash size truncate = none := by
  simp [placedBy, needed, missing]

theorem placedBy_fresh {hash : Hash} {size : Nat} {truncate : Bool}
    (needless : ¬ needsDownload hash size truncate = true) :
    placedBy store hash size truncate = some (some []) := by
  simp [placedBy, needless]

theorem remoteObject_fetched {hash : Hash} {size : Nat} {truncate : Bool}
    (needed : needsDownload hash size truncate = true) :
    format.remoteObject store hash = store.fetch hash := by
  simp only [needsDownload, Bool.and_eq_true, Bool.not_eq_true'] at needed
  simp [StagingFormat.remoteObject, needed.1.2]

theorem placed_op (file : StagedFile) (replaced : Bool) (content : Bytes)
    (id : Nat) (next : Option FileOp) :
    ((file.placeFile replaced content).setOp id next).op =
      Function.update file.op id next := by
  rw [StagedFile.setOp, placeFile_op]

theorem free_of_none {holder : Option LockHolder} (free : holder = none)
    (id : Nat) : holder ≠ some (.op id) := by
  rw [free]
  rintro ⟨⟩

/-- An operation starts that has changed nothing. -/
theorem PlacedRight.starts (right : PlacedRight format store cache) {id : Nat}
    (free : cache.file.op id = none) {op : FileOp}
    (harmless : op.changed = false) :
    PlacedRight format store
      { cache with file := cache.file.setOp id (some op) } := by
  have absent : ∀ old, cache.file.op id ≠ some old := by
    intro old
    rw [free]
    rintro ⟨⟩
  refine right.replace rfl rfl ?_ ?_
    (Or.inr ⟨⟨rfl, rfl, fun _ _ => rfl, fun _ running => running⟩, ?_⟩)
  · exact fun old found => absurd found (absent old)
  · rintro _ ⟨⟩ _
    exact harmless
  · exact fun old found => absurd found (absent old)

theorem placedRight_openEnter {id : Nat}
    (right : PlacedRight format store cache) (locked : Locked cache.file)
    (stepped : cache.file.openEnter id = some file) :
    PlacedRight format store { cache with file } := by
  unfold StagedFile.openEnter at stepped
  split at stepped
  · rename_i free
    have unplaced := right.unplaced locked (free_of_none free)
    split at stepped <;> obtain rfl := Option.some.inj stepped <;>
      · refine right.replace_none unplaced unplaced rfl ?_
        rintro _ ⟨⟩ _
        rfl
  · cases stepped

/-- A plaintext staging file is filled from the Hub, or is empty. -/
theorem placedRight_openFill {id : Nat} {replaced : Bool}
    (right : PlacedRight .plaintext store cache) (locked : Locked cache.file)
    (stepped : cache.file.openFill store id replaced = some file) :
    PlacedRight .plaintext store
      { file
        placed := placedAfter store cache.file cache.placed
          (.openFill id replaced) } := by
  unfold StagedFile.openFill at stepped
  split at stepped
  · rename_i hash size truncate preparing
    have unplaced := right.unplaced_of_holder locked preparing rfl rfl
    have placedIs : placedAfter store cache.file cache.placed
        (.openFill id replaced) = placedBy store hash size truncate := by
      simp only [placedAfter, preparing]
    split at stepped <;> rename_i needed
    · split at stepped
      · rename_i content fetched
        obtain rfl := Option.some.inj stepped
        exact PlacedRight.filled (placed_op _ _ _ _ _) rfl rfl
          (placedIs.trans (placedBy_fetched needed fetched))
          ((remoteObject_fetched needed).trans fetched)
          fun staged found => placeFile_staged cache.file _ _ found
      · rename_i missing
        obtain rfl := Option.some.inj stepped
        refine right.replace_none unplaced
          (placedIs.trans (placedBy_missing needed missing)) rfl ?_
        rintro _ ⟨⟩
    · obtain rfl := Option.some.inj stepped
      exact PlacedRight.filled (placed_op _ _ _ _ _) rfl rfl
        (placedIs.trans (placedBy_fresh needed)) rfl
        fun staged found => placeFile_staged cache.file _ _ found
  · cases stepped

theorem placedRight_setattrEnter {id : Nat}
    (right : PlacedRight .plaintext store cache) (locked : Locked cache.file)
    (stepped : cache.file.setattrEnter store id = some file) :
    PlacedRight .plaintext store
      { file
        placed := placedAfter store cache.file cache.placed
          (.setattrEnter id) } := by
  unfold StagedFile.setattrEnter at stepped
  split at stepped
  · rename_i newSize waiting free
    have unplaced := right.unplaced locked (free_of_none free)
    dsimp only at stepped
    split at stepped <;> rename_i isStaged
    · obtain rfl := Option.some.inj stepped
      refine right.replace_none unplaced ?_ rfl ?_
      · simp only [placedAfter, waiting, isStaged, if_true, unplaced]
      · rintro _ ⟨⟩ _
        rfl
    have placedIs : placedAfter store cache.file cache.placed
        (.setattrEnter id) = placedBy store (cache.file.entry.xetHash.getD [])
          cache.file.entry.size (newSize == 0) := by
      simp only [placedAfter, waiting, isStaged]
      rfl
    split at stepped <;> rename_i needed
    · split at stepped
      · rename_i content fetched
        obtain rfl := Option.some.inj stepped
        exact PlacedRight.filled (placed_op _ _ _ _ _) rfl rfl
          (placedIs.trans (placedBy_fetched needed fetched))
          ((remoteObject_fetched needed).trans fetched)
          fun staged found => placeFile_staged cache.file _ _ found
      · rename_i missing
        obtain rfl := Option.some.inj stepped
        refine right.replace_none unplaced
          (placedIs.trans (placedBy_missing needed missing)) rfl ?_
        rintro _ ⟨⟩
    · obtain rfl := Option.some.inj stepped
      exact PlacedRight.filled (placed_op _ _ _ _ _) rfl rfl
        (placedIs.trans (placedBy_fresh needed)) rfl
        fun staged found => placeFile_staged cache.file _ _ found
  · cases stepped

/-- A mark goes on from a filled staging file. -/
theorem placedRight_mark {id : Nat} {old next : FileOp} {entry : InodeEntry}
    (right : PlacedRight format store cache)
    (found : cache.file.op id = some old) (oldHolds : old.holdsLock = true)
    (oldChanged : old.changed = true) (holds : next.holdsLock = true)
    (changed : next.changed = true)
    (generation : entry.dirtyGeneration = cache.file.entry.dirtyGeneration) :
    PlacedRight format store
      { cache with
        file := { cache.file.setOp id (some next) with entry } } :=
  right.goesOn rfl found oldHolds oldChanged rfl holds changed
    ⟨generation, rfl, fun _ _ => rfl, fun _ running => running⟩

theorem placedRight_pwrite {id handle offset : Nat} {data : Bytes}
    (right : PlacedRight format store cache)
    (stepped : cache.file.pwrite id handle offset data = some file) :
    PlacedRight format store { cache with file } := by
  unfold StagedFile.pwrite at stepped
  split at stepped
  · rename_i free
    have absent : ∀ op, cache.file.op id ≠ some op := by
      intro op
      rw [free]
      rintro ⟨⟩
    split at stepped
    · obtain rfl := Option.some.inj stepped
      refine right.replace rfl rfl
        (fun op found => absurd found (absent op)) ?_ ?_
      · rintro _ ⟨⟩ ⟨⟩
      by_cases staged : cache.file.staging = some handle
      · left
        left
        exact ⟨id, _, Function.update_self _ _ _, rfl, by simp [staged]⟩
      · right
        refine ⟨⟨rfl, rfl, ?_, ?_⟩, fun op found => absurd found (absent op)⟩
        · intro number found
          apply Function.update_of_ne
          rintro rfl
          exact staged found
        · intro item running
          simpa [staged, StagedFile.setOp] using running
    · cases stepped
  · cases stepped

/-- A write that is recorded has overwritten what was placed. -/
theorem placedRight_writeDone {id : Nat}
    (right : PlacedRight format store cache)
    (tracked : cache.file.Tracked)
    (moves : ∀ item, cache.file.flush.item = some item →
      item.dirtyGeneration < u64Max)
    (stepped : cache.file.writeDone id = some file) :
    PlacedRight format store { cache with file } := by
  unfold StagedFile.writeDone at stepped
  split at stepped
  · rename_i newEnd changed writing
    obtain rfl := Option.some.inj stepped
    refine right.replace rfl rfl ?_ ?_ (Or.inl (Or.inr ?_))
    · intro op found holds
      obtain rfl := Option.some.inj (writing.symm.trans found)
      cases holds
    · rintro _ ⟨⟩
    · refine ⟨InodeEntry.setDirty_pos _, fun item running => ?_⟩
      have atMost := (tracked.snapshot item running).2
      have below := moves item running
      simp only [InodeEntry.setDirty]
      omega
  · cases stepped

theorem placedRight_gcOne (right : PlacedRight format store cache)
    (locked : Locked cache.file)
    (stepped : cache.file.gcOne = some file) :
    PlacedRight format store { cache with file } := by
  unfold StagedFile.gcOne at stepped
  split at stepped
  · rename_i free
    have unplaced := right.unplaced locked (free_of_none free)
    split at stepped <;> obtain rfl := Option.some.inj stepped <;>
      exact right.same_none unplaced unplaced rfl
  · cases stepped

/-- A flush that holds the lock finds nothing placed. -/
theorem PlacedRight.flushing (right : PlacedRight format store cache)
    (locked : Locked cache.file) (holds : cache.file.flush.holdsLock = true)
    (ops : file.op = cache.file.op) :
    PlacedRight format store { cache with file } := by
  have unplaced := right.unplaced locked fun id held => by
    rw [locked.flush holds] at held
    cases held
  exact right.same_none unplaced unplaced ops

/-- A commit that lands was not overtaken. -/
theorem PlacedRight.applied (right : PlacedRight format store cache)
    {item : FlushItem} (running : cache.file.flush.item = some item)
    (content : Bytes) (now : Time) :
    PlacedRight format store
      { cache with file := cache.file.applied store item content now } := by
  refine right.sameOps rfl rfl fun hash isPlaced =>
    Or.inr ⟨?_, rfl, fun _ _ => rfl⟩
  rintro (unsettled | ⟨dirty, passed⟩)
  · exact Or.inl unsettled
  · right
    have advanced := Nat.ne_of_gt (passed item running)
    refine ⟨?_, fun other idle => ?_⟩
    · simpa [StagedFile.applied, InodeEntry.applyCommit_of_ne advanced]
        using dirty
    · cases idle

/-- The flush gives its snapshot back or goes on with it. -/
theorem PlacedRight.flushed (right : PlacedRight format store cache)
    {flush : FlushPhase} {remote : Option Bytes}
    (items : ∀ item, flush.item = some item →
      cache.file.flush.item = some item) :
    PlacedRight format store
      { cache with file := { cache.file with flush, remote } } := by
  refine right.sameOps rfl rfl fun hash isPlaced =>
    Or.inr ⟨?_, rfl, fun _ _ => rfl⟩
  exact fun isOver => isOver.sameStaged rfl ⟨rfl, rfl, fun _ _ => rfl, items⟩

theorem placedRight_file {event : FileEvent}
    (right : PlacedRight format store cache) (locked : Locked cache.file)
    (tracked : cache.file.Tracked) (allowed : format.allows event = true)
    (moves : cache.file.GenerationMoves event)
    (stepped : cache.file.step store event = some file) :
    PlacedRight format store
      { file
        placed := placedAfter store cache.file cache.placed event } := by
  cases event with
  | openStart id truncate =>
      simp only [StagedFile.step, StagedFile.openStart] at stepped
      split at stepped
      · rename_i free
        obtain rfl := Option.some.inj stepped
        exact right.starts free rfl
      · cases stepped
  | openEnter id => exact placedRight_openEnter right locked stepped
  | openFill id replaced =>
      cases format with
      | plaintext => exact placedRight_openFill right locked stepped
      | encrypted => cases allowed
  | openMark id =>
      simp only [StagedFile.step, StagedFile.openMark] at stepped
      split at stepped
      · rename_i filled
        obtain rfl := Option.some.inj stepped
        exact placedRight_mark right filled rfl rfl rfl rfl
          (StagedFile.markedEntry_generation _ _ _ _)
      · cases stepped
  | openDone id now =>
      simp only [StagedFile.step, StagedFile.openDone] at stepped
      split at stepped
      · rename_i prepared _
        obtain rfl := Option.some.inj stepped
        exact placedRight_of_finished locked prepared rfl rfl rfl
      · rename_i prepared _
        obtain rfl := Option.some.inj stepped
        exact placedRight_of_finished locked prepared rfl rfl rfl
      · cases stepped
  | setattr id newSize =>
      simp only [StagedFile.step, StagedFile.setattr] at stepped
      split at stepped
      · rename_i free
        obtain rfl := Option.some.inj stepped
        exact right.starts free rfl
      · cases stepped
  | setattrEnter id =>
      cases format with
      | plaintext => exact placedRight_setattrEnter right locked stepped
      | encrypted => cases allowed
  | setattrApply id now =>
      simp only [StagedFile.step, StagedFile.setattrApply] at stepped
      split at stepped
      · rename_i ready _
        obtain rfl := Option.some.inj stepped
        exact placedRight_of_finished locked ready rfl (placed_op _ _ _ _ _)
          rfl
      · rename_i ready _
        obtain rfl := Option.some.inj stepped
        exact placedRight_of_finished locked ready rfl rfl rfl
      · cases stepped
  | pwrite id handle offset data => exact placedRight_pwrite right stepped
  | writeDone id => exact placedRight_writeDone right tracked moves stepped
  | gcOne => exact placedRight_gcOne right locked stepped
  | flushLock =>
      simp only [StagedFile.step, StagedFile.flushLock] at stepped
      split at stepped
      · rename_i free
        obtain rfl := Option.some.inj stepped
        have unplaced := right.unplaced locked (free_of_none free)
        exact right.same_none unplaced unplaced rfl
      · cases stepped
  | flushSnapshot =>
      simp only [StagedFile.step, StagedFile.flushSnapshot] at stepped
      split at stepped
      · rename_i phase
        split at stepped <;> obtain rfl := Option.some.inj stepped <;>
          exact right.flushing locked (by rw [phase]; rfl) rfl
      · cases stepped
  | uploadOk content =>
      simp only [StagedFile.step, StagedFile.uploadOk] at stepped
      split at stepped
      · rename_i phase _
        split at stepped
        · cases stepped
        obtain rfl := Option.some.inj stepped
        exact right.flushing locked (by rw [phase]; rfl) rfl
      · cases stepped
  | uploadFail =>
      simp only [StagedFile.step, StagedFile.uploadFail] at stepped
      split at stepped
      · rename_i phase
        obtain rfl := Option.some.inj stepped
        exact right.flushing locked (by rw [phase]; rfl) rfl
      · cases stepped
  | flushUnlock =>
      simp only [StagedFile.step, StagedFile.flushUnlock] at stepped
      split at stepped
      · rename_i phase
        obtain rfl := Option.some.inj stepped
        exact right.flushing locked (by rw [phase]; rfl) rfl
      · cases stepped
  | flushUnchanged now =>
      simp only [StagedFile.step, StagedFile.flushUnchanged] at stepped
      split at stepped
      · rename_i phase
        split at stepped
        · obtain rfl := Option.some.inj stepped
          exact right.applied (by rw [phase]; rfl) _ now
        · cases stepped
      · cases stepped
  | hubOk =>
      simp only [StagedFile.step, StagedFile.hubOk] at stepped
      split at stepped
      · rename_i phase
        split at stepped
        · cases stepped
        obtain rfl := Option.some.inj stepped
        exact right.flushed fun item running => by rw [phase]; exact running
      · cases stepped
  | hubFail =>
      simp only [StagedFile.step, StagedFile.hubFail] at stepped
      split at stepped
      · split at stepped
        · cases stepped
        obtain rfl := Option.some.inj stepped
        exact right.flushed fun item running => by cases running
      · cases stepped
  | applyCommit now =>
      simp only [StagedFile.step, StagedFile.applyCommit] at stepped
      split at stepped
      · rename_i phase
        obtain rfl := Option.some.inj stepped
        exact right.applied (by rw [phase]; rfl) _ now
      · cases stepped

end

end StagingCache

end HfMount.Flush
