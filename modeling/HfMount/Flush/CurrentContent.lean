import HfMount.Flush.CacheTruth

/-!
# Writes start from the current content

A truncation and a write-open of a plaintext file both decide whether to reuse
the staging file, to download the object or to begin with an empty file.  The
open reuses a staging file only when it is valid; the truncation reuses any.
-/

namespace HfMount.Flush

open Inode Transition

namespace StagedFile

/-- The staging file of a dirty inode, the object that a clean inode names. -/
def currentContent (store : ContentStore) (file : StagedFile) : Option Bytes :=
  if file.entry.isDirty then file.staging.map file.disk
  else StagingFormat.plaintext.remoteObject store
    (file.entry.xetHash.getD [])

/-- `open` for writing without `O_TRUNC`, from its start to its end. -/
def openWrite (store : ContentStore) (file : StagedFile) (id : Nat)
    (replaced : Bool) (now : Time) : Option StagedFile :=
  (file.openStart id false).bind fun started =>
  (started.openEnter id).bind fun entered =>
  (if started.canReuseStaging false then some entered
    else (entered.openFill store id replaced).bind (·.openMark id)).bind
  fun ready => ready.openDone id now

/-- `setattr` with a size, from its start to its end. -/
def setSize (store : ContentStore) (file : StagedFile) (id newSize : Nat)
    (now : Time) : Option StagedFile :=
  (file.setattr id newSize).bind fun started =>
  (started.setattrEnter store id).bind fun ready => ready.setattrApply id now

/-- The staging file is one that a truncation may go on from: there is none,
or it is the file's content, or nothing of it is kept. -/
def TruncationFits (file : StagedFile) (newSize : Nat) : Prop :=
  newSize = 0 ∨ file.staging = none ∨ file.entry.isDirty = true ∨
    file.entry.stagingIsCurrent = true

/-- The size of a clean inode is that of the object it names; a file without
a hash is empty. -/
def Sized (store : ContentStore) (entry : InodeEntry) : Prop :=
  entry.dirtyGeneration = 0 →
    ∀ content ∈ StagingFormat.plaintext.remoteObject store
      (entry.xetHash.getD []), entry.size = content.length

instance (store : ContentStore) (entry : InodeEntry) :
    Decidable (Sized store entry) := by
  unfold Sized
  infer_instance

/-! ## Sizes -/

/-- What a step does to the inode, as far as its size is concerned. -/
inductive EntryChange (store : ContentStore) (before : InodeEntry) :
    InodeEntry → Prop where
  | kept {after : InodeEntry}
      (generation : after.dirtyGeneration = before.dirtyGeneration)
      (hash : after.xetHash = before.xetHash) (size : after.size = before.size)
      (cipherSize : after.cipherSize = before.cipherSize) :
      EntryChange store before after
  | dirtied {after : InodeEntry} (dirty : 0 < after.dirtyGeneration)
      (cipherSize : after.cipherSize = before.cipherSize) :
      EntryChange store before after
  | committed (content : Bytes) (generation : Nat) (now : Time) :
      EntryChange store before (before.applyCommit (store.hash content)
        content.length generation now)

theorem EntryChange.refl (store : ContentStore) (entry : InodeEntry) :
    EntryChange store entry entry :=
  .kept rfl rfl rfl rfl

theorem EntryChange.sized {store : ContentStore} {before after : InodeEntry}
    (named : ∀ content, store.hash content ≠ [])
    (change : EntryChange store before after)
    (plain : before.cipherSize = none) (sized : Sized store before) :
    after.cipherSize = none ∧ Sized store after := by
  cases change with
  | kept generation hash size cipherSize =>
      refine ⟨cipherSize.trans plain, ?_⟩
      unfold Sized at sized ⊢
      rwa [generation, hash, size]
  | dirtied dirty cipherSize =>
      refine ⟨cipherSize.trans plain, fun clean => ?_⟩
      omega
  | committed content generation now =>
      by_cases lands : before.dirtyGeneration = generation
      · rw [InodeEntry.applyCommit_of_eq lands]
        refine ⟨by simp [InodeEntry.recordCommit, plain], ?_⟩
        intro _ fetched isObject
        have spelled : (store.hash content).isEmpty = false := by
          simpa using named content
        simp only [InodeEntry.recordCommit, Option.getD_some,
          StagingFormat.remoteObject, spelled, Bool.false_eq_true, if_false,
          store.fetch_hash, Option.mem_def, Option.some.injEq] at isObject
        simp [InodeEntry.recordCommit, plain, isObject]
      · rw [InodeEntry.applyCommit_of_ne lands]
        exact ⟨plain, sized⟩

theorem markedEntry_change (store : ContentStore) (entry : InodeEntry)
    (hash : Hash) (size : Nat) (truncate : Bool) :
    EntryChange store entry (markedEntry entry hash size truncate) := by
  unfold markedEntry
  dsimp only
  split
  · exact .kept rfl rfl rfl rfl
  · exact .refl store entry

theorem entry_step {store : ContentStore} {before after : StagedFile}
    {event : FileEvent} (stepped : before.step store event = some after) :
    EntryChange store before.entry after.entry := by
  cases event with
  | openStart id truncate =>
      simp only [step, openStart] at stepped
      split at stepped
      · obtain rfl := Option.some.inj stepped
        exact .refl store _
      · cases stepped
  | openEnter id =>
      simp only [step, openEnter] at stepped
      split at stepped
      · split at stepped <;> obtain rfl := Option.some.inj stepped <;>
          exact .kept rfl rfl rfl rfl
      · cases stepped
  | openFill id replaced =>
      simp only [step, openFill] at stepped
      split at stepped
      · have filled : ∀ place content next, EntryChange store before.entry
            ((before.placeFile place content).setOp id next).entry := by
          intro place content next
          simp only [setOp, placeFile_entry]
          exact .refl store _
        split at stepped
        · split at stepped <;> obtain rfl := Option.some.inj stepped
          · exact filled _ _ _
          · exact .refl store _
        · obtain rfl := Option.some.inj stepped
          exact filled _ _ _
      · cases stepped
  | openMark id =>
      simp only [step, openMark] at stepped
      split at stepped
      · obtain rfl := Option.some.inj stepped
        exact markedEntry_change store _ _ _ _
      · cases stepped
  | openDone id now =>
      simp only [step, openDone] at stepped
      split at stepped
      · obtain rfl := Option.some.inj stepped
        exact .dirtied (InodeEntry.setDirty_pos _) rfl
      · obtain rfl := Option.some.inj stepped
        exact .refl store _
      · cases stepped
  | setattr id newSize =>
      simp only [step, setattr] at stepped
      split at stepped
      · obtain rfl := Option.some.inj stepped
        exact .refl store _
      · cases stepped
  | setattrEnter id =>
      simp only [step, setattrEnter] at stepped
      split at stepped
      · have filled : ∀ place content, EntryChange store before.entry
            (before.placeFile place content).entry := by
          intro place content
          rw [placeFile_entry]
          exact .refl store _
        split at stepped
        · obtain rfl := Option.some.inj stepped
          exact .refl store _
        split at stepped
        · split at stepped <;> obtain rfl := Option.some.inj stepped
          · exact filled _ _
          · exact .refl store _
        · obtain rfl := Option.some.inj stepped
          exact filled _ _
      · cases stepped
  | setattrApply id now =>
      simp only [step, setattrApply] at stepped
      split at stepped
      · obtain rfl := Option.some.inj stepped
        exact .dirtied (InodeEntry.setDirty_pos _) rfl
      · obtain rfl := Option.some.inj stepped
        exact .refl store _
      · cases stepped
  | pwrite id handle offset data =>
      simp only [step, pwrite] at stepped
      split at stepped
      · split at stepped
        · obtain rfl := Option.some.inj stepped
          exact .refl store _
        · cases stepped
      · cases stepped
  | writeDone id =>
      simp only [step, writeDone] at stepped
      split at stepped
      · obtain rfl := Option.some.inj stepped
        exact .dirtied (InodeEntry.setDirty_pos _) rfl
      · cases stepped
  | gcOne =>
      simp only [step, gcOne] at stepped
      split at stepped
      · split at stepped <;> obtain rfl := Option.some.inj stepped <;>
          exact .refl store _
      · cases stepped
  | flushLock =>
      simp only [step, flushLock] at stepped
      split at stepped
      · obtain rfl := Option.some.inj stepped
        exact .refl store _
      · cases stepped
  | flushSnapshot =>
      simp only [step, flushSnapshot] at stepped
      split at stepped
      · split at stepped <;> obtain rfl := Option.some.inj stepped <;>
          exact .refl store _
      · cases stepped
  | uploadOk content =>
      simp only [step, uploadOk] at stepped
      split at stepped
      · split at stepped
        · cases stepped
        obtain rfl := Option.some.inj stepped
        exact .refl store _
      · cases stepped
  | uploadFail =>
      simp only [step, uploadFail] at stepped
      split at stepped
      · obtain rfl := Option.some.inj stepped
        exact .refl store _
      · cases stepped
  | flushUnlock =>
      simp only [step, flushUnlock] at stepped
      split at stepped
      · obtain rfl := Option.some.inj stepped
        exact .refl store _
      · cases stepped
  | flushUnchanged now =>
      simp only [step, flushUnchanged] at stepped
      split at stepped
      · split at stepped
        · obtain rfl := Option.some.inj stepped
          exact .committed _ _ now
        · cases stepped
      · cases stepped
  | hubOk =>
      simp only [step, hubOk] at stepped
      split at stepped
      · split at stepped
        · cases stepped
        obtain rfl := Option.some.inj stepped
        exact .refl store _
      · cases stepped
  | hubFail =>
      simp only [step, hubFail] at stepped
      split at stepped
      · split at stepped
        · cases stepped
        obtain rfl := Option.some.inj stepped
        exact .refl store _
      · cases stepped
  | applyCommit now =>
      simp only [step, applyCommit] at stepped
      split at stepped
      · obtain rfl := Option.some.inj stepped
        exact .committed _ _ now
      · cases stepped

/-! ## What the calls leave in the staging file -/

/-- Before a call: the flag is truthful, the size is that of the object, and
no write is half done. -/
structure Callable (store : ContentStore) (file : StagedFile) : Prop where
  cached : StagingCache.Cached .plaintext store file
  sized : Sized store file.entry
  settled : ¬ file.Unsettled

section

variable {store : ContentStore} {file after : StagedFile} {id : Nat}
  {now : Time} {content : Bytes}

/-- A valid staging file holds the current content. -/
theorem Callable.staged_content (callable : Callable store file)
    (valid : file.entry.isDirty = true ∨ file.entry.stagingIsCurrent = true)
    {staged : Nat} (isStaged : file.staging = some staged)
    (current : file.currentContent store = some content) :
    file.disk staged = content := by
  unfold currentContent at current
  split at current <;> rename_i dirty
  · rw [isStaged] at current
    exact Option.some.inj current
  · have flagged := valid.resolve_left dirty
    have clean := InodeEntry.isDirty_eq_false_iff.mp (by simpa using dirty)
    have object := callable.cached clean flagged callable.settled staged isStaged
    exact Option.some.inj (object.symm.trans current)

/-- What a download brings is the current content of a clean inode, and a
clean inode that needs no download is empty. -/
theorem Callable.object_content (callable : Callable store file)
    (clean : file.entry.isDirty = false) {truncate : Bool}
    (current : file.currentContent store = some content) :
    (needsDownload (file.entry.xetHash.getD []) file.entry.size truncate = true →
      store.fetch (file.entry.xetHash.getD []) = some content) ∧
    (needsDownload (file.entry.xetHash.getD []) file.entry.size false = false →
      content = []) := by
  simp only [currentContent, clean, Bool.false_eq_true, if_false] at current
  constructor
  · intro needed
    exact (StagingCache.remoteObject_fetched needed).symm.trans current
  · intro needless
    have size := callable.sized (InodeEntry.isDirty_eq_false_iff.mp clean)
      content current
    by_cases unnamed : (file.entry.xetHash.getD []).isEmpty = true
    · simp only [StagingFormat.remoteObject, unnamed, if_true] at current
      exact (Option.some.inj current).symm
    · have empty : file.entry.size = 0 := by
        simpa [needsDownload, unnamed] using needless
      exact List.eq_nil_of_length_eq_zero (size.symm.trans empty)

/-- A dirty inode without a staging file has no current content. -/
theorem clean_of_unstaged (unstaged : file.staging = none)
    (current : file.currentContent store = some content) :
    file.entry.isDirty = false := by
  cases dirty : file.entry.isDirty with
  | false => rfl
  | true => simp [currentContent, dirty, unstaged] at current

theorem placeFile_content (file : StagedFile) (replaced : Bool)
    (content : Bytes) :
    (file.placeFile replaced content).staging.map
      (file.placeFile replaced content).disk = some content := by
  cases found : (file.placeFile replaced content).staging with
  | none =>
      unfold placeFile at found
      split at found
      · rename_i same
        rw [same] at found
        cases found
      · cases found
  | some staged =>
      exact congrArg some (StagingCache.placeFile_staged file _ _ found)

/-- The open reuses the staging file, or fills it. -/
inductive Opened (store : ContentStore) (file : StagedFile) :
    StagedFile → Prop where
  | reused {after : StagedFile}
      (valid : file.entry.isDirty = true ∨ file.entry.stagingIsCurrent = true)
      (staged : file.staging.isSome = true)
      (staging : after.staging = file.staging) (disk : after.disk = file.disk) :
      Opened store file after
  | filled {after : StagedFile} (filled : Bytes)
      (invalid : file.entry.isDirty = false ∨ file.staging = none)
      (content : after.staging.map after.disk = some filled)
      (fetched : needsDownload (file.entry.xetHash.getD []) file.entry.size
          false = true ∧
          store.fetch (file.entry.xetHash.getD []) = some filled ∨
        needsDownload (file.entry.xetHash.getD []) file.entry.size
          false = false ∧ filled = []) :
      Opened store file after

theorem openDone_staged (stepped : file.openDone id now = some after) :
    after.staging = file.staging ∧ after.disk = file.disk := by
  unfold openDone at stepped
  split at stepped
  · obtain rfl := Option.some.inj stepped
    exact ⟨rfl, rfl⟩
  · obtain rfl := Option.some.inj stepped
    exact ⟨rfl, rfl⟩
  · cases stepped

theorem openMark_staged (stepped : file.openMark id = some after) :
    after.staging = file.staging ∧ after.disk = file.disk := by
  unfold openMark at stepped
  split at stepped
  · obtain rfl := Option.some.inj stepped
    exact ⟨rfl, rfl⟩
  · cases stepped

theorem openStart_opening {truncate : Bool}
    (stepped : file.openStart id truncate = some after) :
    after = file.setOp id (some (.opening (file.entry.xetHash.getD [])
      file.entry.size truncate)) := by
  unfold openStart at stepped
  split at stepped
  · exact (Option.some.inj stepped).symm
  · cases stepped

/-- Entering reuses the staging file or prepares a new one. -/
theorem openEnter_entered {hash : Hash} {size : Nat} {truncate : Bool}
    (opening : file.op id = some (.opening hash size truncate))
    (stepped : file.openEnter id = some after) :
    after.staging = file.staging ∧ after.disk = file.disk ∧
      (file.canReuseStaging truncate = false →
        after.op id = some (.preparing hash size truncate)) := by
  simp only [openEnter, opening] at stepped
  split at stepped
  · rename_i same _
    cases same
    split at stepped <;> rename_i reusable <;>
      obtain rfl := Option.some.inj stepped
    · exact ⟨rfl, rfl, fun fresh => by rw [fresh] at reusable; cases reusable⟩
    · exact ⟨rfl, rfl, fun _ => Function.update_self _ _ _⟩
  · cases stepped

/-- A fill that goes on has put the download, or nothing, under the staging
path. -/
theorem openFill_filled {hash : Hash} {size : Nat} {truncate replaced : Bool}
    {marked : StagedFile}
    (preparing : file.op id = some (.preparing hash size truncate))
    (fill : file.openFill store id replaced = some after)
    (mark : after.openMark id = some marked) :
    ∃ filled, marked.staging.map marked.disk = some filled ∧
      (needsDownload hash size truncate = true ∧
          store.fetch hash = some filled ∨
        needsDownload hash size truncate = false ∧ filled = []) := by
  obtain ⟨staging, disk⟩ := openMark_staged mark
  rw [staging, disk]
  simp only [openFill, preparing] at fill
  split at fill <;> rename_i needed
  · split at fill <;> rename_i fetched <;> obtain rfl := Option.some.inj fill
    · exact ⟨_, placeFile_content file replaced _, Or.inl ⟨needed, fetched⟩⟩
    · simp [openMark, finishOp, setOp] at mark
  · obtain rfl := Option.some.inj fill
    exact ⟨[], placeFile_content file false [],
      Or.inr ⟨by simpa using needed, rfl⟩⟩

theorem openWrite_opened {replaced : Bool}
    (stepped : file.openWrite store id replaced now = some after) :
    Opened store file after := by
  simp only [openWrite, Option.bind_eq_some_iff] at stepped
  obtain ⟨started, start, entered, enter, ready, prepare, done⟩ := stepped
  obtain rfl := openStart_opening start
  obtain ⟨staging, disk, preparing⟩ :=
    openEnter_entered (Function.update_self _ _ _) enter
  obtain ⟨sameStaging, sameDisk⟩ := openDone_staged done
  split at prepare <;> rename_i reusable
  · obtain rfl := Option.some.inj prepare
    simp only [canReuseStaging, setOp, Bool.not_false, Bool.true_and,
      Bool.and_eq_true, Bool.or_eq_true] at reusable
    exact .reused reusable.1 reusable.2 (sameStaging.trans staging)
      (sameDisk.trans disk)
  · obtain ⟨filling, fill, mark⟩ := Option.bind_eq_some_iff.mp prepare
    obtain ⟨filled, content, fetched⟩ :=
      openFill_filled (preparing (by simpa using reusable)) fill mark
    rw [← sameStaging, ← sameDisk] at content
    refine .filled filled ?_ content fetched
    simp only [canReuseStaging, setOp, Bool.not_false, Bool.true_and,
      Bool.and_eq_true, Bool.or_eq_true, not_and_or, not_or] at reusable
    rcases reusable with invalid | unstaged
    · left
      simpa using invalid.1
    · right
      simpa using unstaged

/-- A write-open leaves the current content in the staging file. -/
theorem Callable.openWrite (callable : Callable store file) {replaced : Bool}
    (current : file.currentContent store = some content)
    (stepped : file.openWrite store id replaced now = some after) :
    after.staging.map after.disk = some content := by
  cases openWrite_opened stepped with
  | reused valid isStaged staging disk =>
      obtain ⟨staged, found⟩ := Option.isSome_iff_exists.mp isStaged
      rw [staging, disk, found]
      exact congrArg some (callable.staged_content valid found current)
  | filled filled invalid placed fetched =>
      have clean : file.entry.isDirty = false :=
        invalid.elim (fun clean => clean) fun unstaged =>
          clean_of_unstaged unstaged current
      obtain ⟨download, empty⟩ := callable.object_content clean current
      rw [placed]
      rcases fetched with ⟨needed, fetched⟩ | ⟨needless, rfl⟩
      · exact fetched.symm.trans (download needed)
      · rw [empty needless]

theorem setattr_truncating {newSize : Nat}
    (stepped : file.setattr id newSize = some after) :
    after = file.setOp id (some (.truncating newSize)) := by
  unfold setattr at stepped
  split at stepped
  · exact (Option.some.inj stepped).symm
  · cases stepped

/-- A truncation goes on with the staging file that is there, or fills a new
one. -/
theorem setattrEnter_ready {newSize : Nat} {final : StagedFile}
    (truncating : file.op id = some (.truncating newSize))
    (enter : file.setattrEnter store id = some after)
    (apply : after.setattrApply id now = some final) :
    ∃ opened changed, after.op id = some (.truncateReady newSize changed) ∧
      after.staging.map after.disk = some opened ∧
      (file.staging.map file.disk = some opened ∨ file.staging = none ∧
        (needsDownload (file.entry.xetHash.getD []) file.entry.size
            (newSize == 0) = true ∧
            store.fetch (file.entry.xetHash.getD []) = some opened ∨
          needsDownload (file.entry.xetHash.getD []) file.entry.size
            (newSize == 0) = false ∧ opened = [])) := by
  simp only [setattrEnter, truncating] at enter
  split at enter
  · rename_i same _
    cases same
    split at enter <;> rename_i isStaged
    · obtain rfl := Option.some.inj enter
      obtain ⟨staged, found⟩ := Option.isSome_iff_exists.mp isStaged
      refine ⟨file.disk staged, false, Function.update_self _ _ _, ?_, Or.inl ?_⟩
      · simp [setOp, found]
      · simp [found]
    have unstaged : file.staging = none := by simpa using isStaged
    split at enter <;> rename_i needed
    · split at enter <;> rename_i fetched <;> obtain rfl := Option.some.inj enter
      · exact ⟨_, true, Function.update_self _ _ _,
          placeFile_content file true _, Or.inr ⟨unstaged,
            Or.inl ⟨needed, fetched⟩⟩⟩
      · simp [setattrApply, setOp] at apply
    · obtain rfl := Option.some.inj enter
      exact ⟨[], true, Function.update_self _ _ _,
        placeFile_content file false [], Or.inr ⟨unstaged,
          Or.inr ⟨by simpa using needed, rfl⟩⟩⟩
  · cases enter

theorem setattrApply_content {newSize : Nat} {changed : Bool} {opened : Bytes}
    (ready : file.op id = some (.truncateReady newSize changed))
    (staged : file.staging.map file.disk = some opened)
    (stepped : file.setattrApply id now = some after) :
    after.staging.map after.disk =
      some (if newSize = 0 then [] else setLen opened newSize) := by
  obtain ⟨number, found, rfl⟩ := Option.map_eq_some_iff.mp staged
  simp only [setattrApply, ready, found] at stepped
  obtain rfl := Option.some.inj stepped
  exact placeFile_content file false _

theorem setLen_zero (content : Bytes) : setLen content 0 = [] := by
  simp [setLen]

/-- A truncation that may go on from the staging file leaves the current
content at its new length. -/
theorem Callable.setSize (callable : Callable store file) {newSize : Nat}
    (fits : file.TruncationFits newSize)
    (current : file.currentContent store = some content)
    (stepped : file.setSize store id newSize now = some after) :
    after.staging.map after.disk = some (setLen content newSize) := by
  simp only [StagedFile.setSize, Option.bind_eq_some_iff] at stepped
  obtain ⟨started, start, entered, enter, apply⟩ := stepped
  obtain rfl := setattr_truncating start
  obtain ⟨opened, changed, ready, staged, source⟩ :=
    setattrEnter_ready (Function.update_self _ _ _) enter apply
  rw [setattrApply_content ready staged apply]
  split <;> rename_i whole
  · rw [whole, setLen_zero]
  have same : opened = content := by
    rcases source with reused | ⟨unstaged, source⟩
    · obtain ⟨number, found, rfl⟩ := Option.map_eq_some_iff.mp reused
      rcases fits with empty | unstaged | valid
      · exact absurd empty whole
      · rw [StagedFile.setOp, unstaged] at found
        cases found
      · exact callable.staged_content valid found current
    · have clean := clean_of_unstaged unstaged current
      have kept : (newSize == 0) = false := by simpa using whole
      obtain ⟨download, empty⟩ := callable.object_content clean current
      rw [kept] at source
      rcases source with ⟨needed, fetched⟩ | ⟨needless, rfl⟩
      · exact Option.some.inj (fetched.symm.trans (download needed))
      · exact (empty needless).symm
  rw [same]

end

end StagedFile

namespace StagingCache

/-- The metadata that the remote reports is that of the object it names. -/
def MetadataFits (store : ContentStore) (cache : StagingCache) :
    CacheEvent → Prop
  | .updateRemote hash etag size mtime cipherSize =>
      StagedFile.Sized store
        (cache.file.entry.updateRemote hash etag size mtime cipherSize)
  | .mergeRemote hash size mtime =>
      StagedFile.Sized store (cache.file.entry.mergeRemote hash size mtime)
  | _ => True

instance (store : ContentStore) (cache : StagingCache) :
    ∀ event, Decidable (cache.MetadataFits store event)
  | .updateRemote hash etag size mtime cipherSize =>
      inferInstanceAs (Decidable (StagedFile.Sized store
        (cache.file.entry.updateRemote hash etag size mtime cipherSize)))
  | .mergeRemote hash size mtime =>
      inferInstanceAs (Decidable (StagedFile.Sized store
        (cache.file.entry.mergeRemote hash size mtime)))
  | .file _ | .encryptedEnter _ | .encryptedFill _ _ | .encryptedMark _
  | .encryptedDone _ _ | .encryptedWrite _ _ _ | .cancel _ | .fail _ _
  | .setattrFails _ _ => isTrue trivial

/-- A plaintext file whose size is that of its object. -/
structure Plain (store : ContentStore) (cache : StagingCache) : Prop where
  plain : cache.file.entry.cipherSize = none
  sized : StagedFile.Sized store cache.file.entry

theorem Plain.same {store : ContentStore} {before after : StagingCache}
    (plain : Plain store before)
    (entry : after.file.entry = before.file.entry) : Plain store after :=
  ⟨entry ▸ plain.plain, entry ▸ plain.sized⟩

theorem step_plain {store : ContentStore}
    (named : ∀ content, store.hash content ≠ []) {before after : StagingCache}
    {event : CacheEvent} (plain : Plain store before)
    (fits : before.MetadataFits store event)
    (stepped : before.step .plaintext store event = some after) :
    Plain store after := by
  cases event with
  | file event =>
      simp only [step] at stepped
      split at stepped
      · obtain ⟨file, moved, rfl⟩ := Option.map_eq_some_iff.mp stepped
        obtain ⟨cipherSize, sized⟩ := (StagedFile.entry_step moved).sized named
          plain.plain plain.sized
        exact ⟨cipherSize, sized⟩
      · cases stepped
  | encryptedEnter id => cases stepped
  | encryptedFill id replaced => cases stepped
  | encryptedMark id => cases stepped
  | encryptedDone id now => cases stepped
  | encryptedWrite id newEnd content => cases stepped
  | cancel id =>
      simp only [step] at stepped
      split at stepped
      · obtain rfl := Option.some.inj stepped
        exact plain.same rfl
      · obtain rfl := Option.some.inj stepped
        exact plain.same rfl
      · cases stepped
  | fail id leftover =>
      have left : (before.file.leave leftover).entry = before.file.entry := by
        cases leftover with
        | none => rfl
        | some content => exact before.file.placeFile_entry false content
      simp only [step] at stepped
      split at stepped
      · obtain rfl := Option.some.inj stepped
        exact plain.same left
      · split at stepped
        · obtain rfl := Option.some.inj stepped
          exact plain.same rfl
        · cases stepped
      · split at stepped
        · obtain rfl := Option.some.inj stepped
          exact plain.same rfl
        · cases stepped
      · split at stepped
        · obtain rfl := Option.some.inj stepped
          exact plain.same rfl
        · cases stepped
      · cases stepped
  | setattrFails id leftover =>
      simp only [step] at stepped
      split at stepped
      · obtain rfl := Option.some.inj stepped
        exact plain.same (before.file.placeFile_entry false leftover)
      · cases stepped
  | updateRemote hash etag size mtime cipherSize =>
      simp only [step] at stepped
      split at stepped <;> rename_i allowed
      · cases stepped
      obtain rfl := Option.some.inj stepped
      refine ⟨?_, fits⟩
      have unciphered : cipherSize = none := by simpa using allowed
      dsimp only
      unfold InodeEntry.updateRemote
      split
      · exact plain.plain
      · exact unciphered
  | mergeRemote hash size mtime =>
      simp only [step] at stepped
      obtain rfl := Option.some.inj stepped
      refine ⟨?_, fits⟩
      dsimp only
      unfold InodeEntry.mergeRemote
      split <;> exact plain.plain

/-- What the calls promise in a state: an open leaves the current content in
the staging file, and so does a truncation that may go on from it, at the new
length. -/
def StartsFromCurrent (store : ContentStore) (file : StagedFile)
    (fits : StagedFile → Nat → Prop) : Prop :=
  ∀ content, file.currentContent store = some content →
    (∀ id replaced now after,
      file.openWrite store id replaced now = some after →
        after.staging.map after.disk = some content) ∧
    ∀ id newSize now after, fits file newSize →
      file.setSize store id newSize now = some after →
        after.staging.map after.disk = some (setLen content newSize)

/-- In every state that such a run reaches and in which no write is half done,
opens start from the current content, and truncations that do not reuse an
outdated staging file do. -/
theorem starts_from_current_of_fits {store : ContentStore}
    (named : ∀ content, store.hash content ≠ [])
    {initial final : StagingCache} {events : List CacheEvent}
    (start : initial.Initial) (plain : Plain store initial)
    (run : exec (step .plaintext store) initial events = some final)
    (fits : AllSteps (step .plaintext store)
      (fun cache event => cache.Fits event ∧ cache.MetadataFits store event)
      initial events)
    (settled : ¬ final.file.Unsettled) :
    StartsFromCurrent store final.file StagedFile.TruncationFits := by
  have preserved : ∀ before event after,
      (Honest .plaintext store before ∧ Plain store before) →
      before.Fits event ∧ before.MetadataFits store event →
      before.step .plaintext store event = some after →
      Honest .plaintext store after ∧ Plain store after := by
    rintro before event after ⟨honest, plain⟩ ⟨fits, metadata⟩ stepped
    exact ⟨step_honest named before event after honest fits stepped,
      step_plain named plain metadata stepped⟩
  have reached := exec_invariant preserved ⟨honest_initial start, plain⟩ fits
    run
  have callable : StagedFile.Callable store final.file :=
    ⟨reached.1.cached, reached.2.sized, settled⟩
  intro content current
  constructor
  · intro id replaced now after stepped
    exact callable.openWrite current stepped
  · intro id newSize now after fits stepped
    exact callable.setSize fits current stepped

theorem plain_listed : Plain .spelled (listed none) :=
  ⟨rfl, by decide⟩

/-- The file is opened, overwritten and flushed, and its staging file stays;
then the poll moves the hash. -/
def leftBehind : List CacheEvent :=
  [.file (.openStart 0 false), .file (.openEnter 0),
    .file (.openFill 0 false), .file (.openMark 0), .file (.openDone 0 1),
    .file (.pwrite 0 0 0 [66]), .file (.writeDone 0), .file .flushLock,
    .file .flushSnapshot, .file (.uploadOk [66]), .file .flushUnlock,
    .file .hubOk, .file (.applyCommit 2),
    .updateRemote (some (ContentStore.spelled.hash [67, 68])) none 2 3 none]

theorem settled_of_no_ops {file : StagedFile}
    (noOps : ∀ id, file.op id = none) : ¬ file.Unsettled := by
  rintro ⟨id, op, found, _⟩
  rw [noOps id] at found
  cases found

theorem starts_from_current_of_fits_leftBehind :
    StartsFromCurrent .spelled
      ((exec (step .plaintext .spelled) (listed none) leftBehind).get rfl).file
      StagedFile.TruncationFits :=
  starts_from_current_of_fits spelled_named (initial_listed none) plain_listed
    (Option.some_get _).symm (by decide)
    (settled_of_no_ops (by rintro (_ | id) <;> rfl))

/-- The truncation to one byte cuts the outdated staging file. -/
theorem truncation_not_from_current :
    ¬ ∀ (store : ContentStore) (initial final : StagingCache)
      (events : List CacheEvent), (∀ content, store.hash content ≠ []) →
      initial.Initial → Plain store initial →
      exec (step .plaintext store) initial events = some final →
      AllSteps (step .plaintext store) (MetadataFits store) initial events →
      ¬ final.file.Unsettled →
      StartsFromCurrent store final.file fun _ _ => True := by
  intro claim
  have starts := claim .spelled (listed none) _ leftBehind spelled_named
    (initial_listed none) plain_listed rfl (by decide)
    (settled_of_no_ops (by rintro (_ | id) <;> rfl)) [67, 68] rfl
  have cut := starts.2 0 1 4 _ trivial rfl
  exact absurd cut (by decide)

end StagingCache

end HfMount.Flush
