import HfMount.Flush.Effects
import HfMount.Inode.Table

/-!
# The staging file as a cache

Between flushes the staging file of a clean inode is kept as a cache of the
remote object, and a flag says whether it is current.  Opens set and clear the
flag, commits set it, and changes that come from the remote clear it.  The
state below is a staged file with the opens of an encrypted mount, with
operations that fail or are cancelled, and with updates from the remote.
-/

namespace HfMount.Inode

namespace InodeEntry

/-- One entry under `updateRemoteFile`. -/
def updateRemote (entry : InodeEntry) (hash etag : Option Hash) (size : Nat)
    (mtime : Time) (cipherSize : Option Nat) : InodeEntry :=
  if entry.isDirty then entry
  else
    { entry with
      xetHash := hash
      etag
      size
      cipherSize
      mtime
      stagingIsCurrent := false }

/-- One entry under `mergeRemoteFile`. -/
def mergeRemote (entry : InodeEntry) (hash : Option Hash) (size : Option Nat)
    (mtime : Option Time) : InodeEntry :=
  if entry.isDirty then entry
  else
    { entry with
      xetHash := hash.orElse fun _ => entry.xetHash
      size := size.getD entry.size
      mtime := mtime.getD entry.mtime
      stagingIsCurrent := false }

end InodeEntry

end HfMount.Inode

namespace HfMount.Flush

open Inode Transition

/-- Plaintext mounts stage the content itself, encrypted mounts a container. -/
inductive StagingFormat where
  | plaintext
  | encrypted (container : Bytes)
  deriving DecidableEq

/-- A fresh staging file: empty, or an empty container. -/
def StagingFormat.fresh : StagingFormat → Bytes
  | .plaintext => []
  | .encrypted container => container

/-- The object of a hash; a file without one is fresh. -/
def StagingFormat.remoteObject (format : StagingFormat) (store : ContentStore)
    (hash : Hash) : Option Bytes :=
  if hash.isEmpty then some format.fresh else store.fetch hash

def FileOp.holdsLock : FileOp → Bool
  | .preparing _ _ _ | .filled _ _ _ | .prepared _ _ | .truncateReady _ _ =>
      true
  | .opening _ _ _ | .truncating _ | .writing _ _ => false

def FlushPhase.holdsLock : FlushPhase → Bool
  | .locked | .uploading _ _ | .uploaded _ _ => true
  | .idle | .released _ _ | .committed _ _ => false

/-- `placed` records what the operation that holds the lock has put into the
staging file: the object of a hash, or something else. -/
structure StagingCache where
  file : StagedFile
  placed : Option (Option Hash)

inductive CacheEvent where
  | file (event : FileEvent)
  | encryptedEnter (id : Nat)
  | encryptedFill (id : Nat) (replaced : Bool)
  | encryptedMark (id : Nat)
  | encryptedDone (id : Nat) (now : Time)
  | encryptedWrite (id newEnd : Nat) (content : Bytes)
  /-- An operation that waits for the lock is cancelled. -/
  | cancel (id : Nat)
  /-- An operation that holds the lock fails or is cancelled; a download may
  leave part of the object. -/
  | fail (id : Nat) (leftover : Option Bytes)
  | setattrFails (id : Nat) (leftover : Bytes)
  | updateRemote (hash etag : Option Hash) (size : Nat) (mtime : Time)
      (cipherSize : Option Nat)
  | mergeRemote (hash : Option Hash) (size : Option Nat) (mtime : Option Time)
  deriving DecidableEq

/-- The steps that a mount of the format takes; opens, truncations and writes
of encrypted files are steps of their own. -/
def StagingFormat.allows : StagingFormat → FileEvent → Bool
  | .plaintext, _ => true
  | .encrypted _, .openStart _ _ | .encrypted _, .writeDone _
  | .encrypted _, .gcOne | .encrypted _, .flushLock
  | .encrypted _, .flushSnapshot | .encrypted _, .uploadOk _
  | .encrypted _, .uploadFail | .encrypted _, .flushUnlock
  | .encrypted _, .flushUnchanged _ | .encrypted _, .hubOk
  | .encrypted _, .hubFail | .encrypted _, .applyCommit _ => true
  | .encrypted _, _ => false

/-- What the preparation of a staging file puts there. -/
def placedBy (store : ContentStore) (hash : Hash) (size : Nat)
    (truncate : Bool) : Option (Option Hash) :=
  if needsDownload hash size truncate then
    (store.fetch hash).map fun _ => some hash
  else some (some [])

/-- The entry once an encrypted open has marked it dirty. -/
def encryptedEntry (entry : InodeEntry) (container : Bytes) (truncate : Bool)
    (now : Time) : InodeEntry :=
  let opened := StagedFile.openedEntry entry truncate now
  { opened with
    cipherSize := if truncate then some container.length
      else opened.cipherSize }

namespace StagedFile

/-- `ensureEncryptedStaging` reads the inode under the lock, and leaves the
cache flag as it is. -/
def encryptedEnter (file : StagedFile) (id : Nat) : Option StagedFile :=
  match file.op id, file.lock with
  | some (.opening _ _ truncate), none =>
      let op : FileOp := if file.canReuseStaging truncate then
          .prepared truncate false
        else .preparing (file.entry.xetHash.getD [])
          (file.entry.cipherSize.getD 0) truncate
      some { file.setOp id (some op) with lock := some (.op id) }
  | _, _ => none

def encryptedFill (store : ContentStore) (container : Bytes)
    (file : StagedFile) (id : Nat) (replaced : Bool) : Option StagedFile :=
  match file.op id with
  | some (.preparing hash size truncate) =>
      if needsDownload hash size truncate then
        match store.fetch hash with
        | some content => some ((file.placeFile replaced content).setOp id
            (some (.filled hash size truncate)))
        | none => some (file.finishOp id)
      else
        some ((file.placeFile false container).setOp id
          (some (.prepared truncate true)))
  | _ => none

/-- After a download the cache is flagged as current. -/
def encryptedMark (file : StagedFile) (id : Nat) : Option StagedFile :=
  match file.op id with
  | some (.filled _ _ truncate) =>
      some { file.setOp id (some (.prepared truncate true)) with
        entry := { file.entry with stagingIsCurrent := true } }
  | _ => none

def encryptedDone (container : Bytes) (file : StagedFile) (id : Nat)
    (now : Time) : Option StagedFile :=
  match file.op id, file.staging with
  | some (.prepared truncate _), some opened =>
      some { file.finishOp id with
        entry := encryptedEntry file.entry container truncate now
        handles := opened :: file.handles }
  | some (.prepared _ _), none => some (file.finishOp id)
  | _, _ => none

/-- A write through the container, which may change any of its bytes. -/
def encryptedWrite (file : StagedFile) (id newEnd : Nat) (content : Bytes) :
    Option StagedFile :=
  match file.op id, file.staging with
  | none, some _ =>
      if file.handles.isEmpty then none
      else some ((file.placeFile false content).setOp id
        (some (.writing newEnd true)))
  | _, _ => none

def leave (file : StagedFile) : Option Bytes → StagedFile
  | none => file
  | some leftover => file.placeFile false leftover

end StagedFile

namespace StagingCache

def placedAfter (store : ContentStore) (file : StagedFile)
    (placed : Option (Option Hash)) : FileEvent → Option (Option Hash)
  | .openFill id _ =>
      match file.op id with
      | some (.preparing hash size truncate) =>
          placedBy store hash size truncate
      | _ => placed
  | .setattrEnter id =>
      match file.op id with
      | some (.truncating newSize) =>
          if file.staging.isSome then placed
          else placedBy store (file.entry.xetHash.getD []) file.entry.size
            (newSize == 0)
      | _ => placed
  | .openDone _ _ | .setattrApply _ _ => none
  | _ => placed

def step (format : StagingFormat) (store : ContentStore)
    (cache : StagingCache) : CacheEvent → Option StagingCache
  | .file event =>
      if format.allows event then
        (cache.file.step store event).map fun file =>
          { file
            placed := placedAfter store cache.file cache.placed event }
      else none
  | .encryptedEnter id =>
      match format with
      | .plaintext => none
      | .encrypted _ =>
          (cache.file.encryptedEnter id).map fun file => { cache with file }
  | .encryptedFill id replaced =>
      match format with
      | .plaintext => none
      | .encrypted container =>
          (cache.file.encryptedFill store container id replaced).map fun file =>
            { file
              placed := placedAfter store cache.file cache.placed
                (.openFill id replaced) }
  | .encryptedMark id =>
      match format with
      | .plaintext => none
      | .encrypted _ =>
          (cache.file.encryptedMark id).map fun file => { cache with file }
  | .encryptedDone id now =>
      match format with
      | .plaintext => none
      | .encrypted container =>
          (cache.file.encryptedDone container id now).map fun file =>
            { file
              placed := none }
  | .encryptedWrite id newEnd content =>
      match format with
      | .plaintext => none
      | .encrypted _ =>
          (cache.file.encryptedWrite id newEnd content).map fun file =>
            { cache with file }
  | .cancel id =>
      match cache.file.op id with
      | some (.opening _ _ _) | some (.truncating _) =>
          some { cache with file := cache.file.setOp id none }
      | _ => none
  | .fail id leftover =>
      match cache.file.op id with
      | some (.preparing _ _ _) =>
          some
            { file := (cache.file.leave leftover).finishOp id
              placed := none }
      | some (.filled _ _ _) | some (.prepared _ _)
      | some (.truncateReady _ _) =>
          if leftover.isNone then
            some
              { file := cache.file.finishOp id
                placed := none }
          else none
      | _ => none
  | .setattrFails id leftover =>
      match cache.file.op id, cache.file.lock, cache.file.staging with
      | some (.truncating _), none, none =>
          some { cache with
            file := (cache.file.placeFile false leftover).setOp id none }
      | _, _, _ => none
  | .updateRemote hash etag size mtime cipherSize =>
      if format = .plaintext ∧ cipherSize.isSome then none
      else some { cache with
        file := { cache.file with
          entry := cache.file.entry.updateRemote hash etag size mtime
            cipherSize } }
  | .mergeRemote hash size mtime =>
      some { cache with
        file := { cache.file with
          entry := cache.file.entry.mergeRemote hash size mtime } }

/-- An operation that has put something into the staging file may fail only if
no commit of what was there before is under way, and the cache flag does not
vouch for anything but the object that the inode names. -/
def FailFits (cache : StagingCache) : Option (Option Hash) → Prop
  | none => True
  | some source =>
      (∀ item, cache.file.flush.item = some item →
        item.dirtyGeneration ≠ cache.file.entry.dirtyGeneration) ∧
      (cache.file.entry.isDirty = true ∨
        cache.file.entry.stagingIsCurrent = false ∨
        source = some (cache.file.entry.xetHash.getD []))

instance (cache : StagingCache) (source : Option (Option Hash)) :
    Decidable (cache.FailFits source) := by
  cases source <;> unfold FailFits <;> infer_instance

def Fits (cache : StagingCache) : CacheEvent → Prop
  | .file event => cache.file.GenerationMoves event
  | .encryptedDone id now => cache.file.GenerationMoves (.openDone id now)
  | .fail _ leftover =>
      cache.FailFits (if leftover.isSome then some none else cache.placed)
  | .setattrFails _ _ => cache.FailFits (some none)
  | _ => True

instance (cache : StagingCache) (event : CacheEvent) :
    Decidable (cache.Fits event) := by
  cases event <;> unfold Fits <;> infer_instance

/-- No open or truncation is preparing the staging file, and no write is half
done. -/
def Quiet (cache : StagingCache) : Prop :=
  ∀ id op, cache.file.op id = some op →
    op.holdsLock = false ∧ op.changed = false

/-- A clean inode that is flagged as current stages the object that it
names. -/
def Truthful (format : StagingFormat) (store : ContentStore)
    (cache : StagingCache) : Prop :=
  cache.file.entry.isDirty = false →
    cache.file.entry.stagingIsCurrent = true → cache.Quiet →
    ∀ staged, cache.file.staging = some staged →
      format.remoteObject store (cache.file.entry.xetHash.getD []) =
        some (cache.file.disk staged)

/-- A file that was just listed and has no staging file, or that was just
created and is dirty; nothing is in progress. -/
structure Initial (cache : StagingCache) : Prop where
  bounded : cache.file.entry.dirtyGeneration ≤ u64Max
  idle : cache.file.flush = .idle
  fresh : cache.file.staging = none ∨ cache.file.entry.isDirty = true
  noOps : ∀ id, cache.file.op id = none
  unplaced : cache.placed = none

/-! ## The lock -/

/-- At most one operation or flush is at work under the lock. -/
structure Locked (file : StagedFile) : Prop where
  op : ∀ id op, file.op id = some op → op.holdsLock = true →
    file.lock = some (.op id)
  flush : file.flush.holdsLock = true → file.lock = some .flush

/-- One operation goes on, takes the lock, or gives it back. -/
theorem Locked.replace {before after : StagedFile} (locked : Locked before)
    {id : Nat} {next : Option FileOp}
    (ops : after.op = Function.update before.op id next)
    (takes : ∀ op, next = some op → op.holdsLock = true →
      after.lock = some (.op id))
    (lock : after.lock = before.lock ∨ before.lock = none ∨
      before.lock = some (.op id))
    (flush : after.flush.holdsLock = true → before.flush.holdsLock = true) :
    Locked after := by
  constructor
  · intro other op found holds
    rw [ops] at found
    by_cases same : other = id
    · subst same
      rw [Function.update_self] at found
      exact takes op found holds
    · rw [Function.update_of_ne same] at found
      have held := locked.op other op found holds
      rcases lock with kept | free | mine
      · exact kept.trans held
      · rw [free] at held
        cases held
      · rw [mine] at held
        cases held
        exact absurd rfl same
  · intro holds
    have held := locked.flush (flush holds)
    rcases lock with kept | free | mine
    · exact kept.trans held
    · rw [free] at held
      cases held
    · rw [mine] at held
      cases held

/-- The flush goes on, takes the lock, or gives it back. -/
theorem Locked.flushed {before after : StagedFile} (locked : Locked before)
    (ops : after.op = before.op)
    (flush : after.lock = before.lock ∧
        (after.flush.holdsLock = true → before.flush.holdsLock = true) ∨
      before.lock = none ∧ after.lock = some .flush ∨
      before.lock = some .flush ∧ after.flush.holdsLock = false) :
    Locked after := by
  constructor
  · intro id op found holds
    have held := locked.op id op (ops ▸ found) holds
    rcases flush with ⟨kept, _⟩ | ⟨free, _⟩ | ⟨mine, _⟩
    · exact kept.trans held
    · rw [free] at held
      cases held
    · rw [mine] at held
      cases held
  · intro holds
    rcases flush with ⟨kept, less⟩ | ⟨_, taken⟩ | ⟨_, idle⟩
    · exact kept.trans (locked.flush (less holds))
    · exact taken
    · rw [idle] at holds
      cases holds

@[simp] theorem disturb_holdsLock (phase : FlushPhase) :
    phase.disturb.holdsLock = phase.holdsLock := by
  cases phase <;> rfl

theorem placeFile_flush (file : StagedFile) (replaced : Bool)
    (content : Bytes) :
    (file.placeFile replaced content).flush = file.flush.disturb := by
  unfold StagedFile.placeFile
  split <;> rfl

@[simp] theorem placeFile_op (file : StagedFile) (replaced : Bool)
    (content : Bytes) : (file.placeFile replaced content).op = file.op := by
  unfold StagedFile.placeFile
  split <;> rfl

@[simp] theorem placeFile_lock (file : StagedFile) (replaced : Bool)
    (content : Bytes) :
    (file.placeFile replaced content).lock = file.lock := by
  unfold StagedFile.placeFile
  split <;> rfl

/-- The staging file has the content that was placed. -/
theorem placeFile_staged (file : StagedFile) (replaced : Bool)
    (content : Bytes) {staged : Nat}
    (found : (file.placeFile replaced content).staging = some staged) :
    (file.placeFile replaced content).disk staged = content := by
  unfold StagedFile.placeFile at found ⊢
  split at found <;> rename_i same
  · rw [same] at found
    obtain rfl := Option.some.inj found
    exact Function.update_self _ _ _
  · obtain rfl := Option.some.inj found
    exact Function.update_self _ _ _

theorem locked_step {store : ContentStore} {before after : StagedFile}
    {event : FileEvent} (locked : Locked before)
    (stepped : before.step store event = some after) : Locked after := by
  have placedFlush : ∀ replaced content,
      (before.placeFile replaced content).flush.holdsLock = true →
        before.flush.holdsLock = true := by
    intro replaced content holds
    rwa [placeFile_flush, disturb_holdsLock] at holds
  cases event with
  | openStart id truncate =>
      simp only [StagedFile.step, StagedFile.openStart] at stepped
      split at stepped
      · obtain rfl := Option.some.inj stepped
        exact locked.replace rfl (by rintro _ ⟨⟩ ⟨⟩) (Or.inl rfl)
          fun holds => holds
      · cases stepped
  | openEnter id =>
      simp only [StagedFile.step, StagedFile.openEnter] at stepped
      split at stepped
      · rename_i free
        split at stepped <;> obtain rfl := Option.some.inj stepped <;>
          exact locked.replace rfl (fun _ _ _ => rfl) (Or.inr (Or.inl free))
            fun holds => holds
      · cases stepped
  | openFill id replaced =>
      simp only [StagedFile.step, StagedFile.openFill] at stepped
      split at stepped
      · rename_i preparing
        have mine := locked.op id _ preparing rfl
        have filled : ∀ place content next,
            Locked ((before.placeFile place content).setOp id next) := by
          intro place content next
          apply locked.replace (by simp [StagedFile.setOp]; rfl)
          · intro op _ _
            simpa [StagedFile.setOp] using mine
          · simp [StagedFile.setOp]
          · exact placedFlush place content
        split at stepped
        · split at stepped <;> obtain rfl := Option.some.inj stepped
          · exact filled _ _ _
          · exact locked.replace rfl (by rintro _ ⟨⟩) (Or.inr (Or.inr mine))
              fun holds => holds
        · obtain rfl := Option.some.inj stepped
          exact filled _ _ _
      · cases stepped
  | openMark id =>
      simp only [StagedFile.step, StagedFile.openMark] at stepped
      split at stepped
      · rename_i filled
        obtain rfl := Option.some.inj stepped
        exact locked.replace rfl
          (fun _ _ _ => locked.op id _ filled rfl) (Or.inl rfl)
          fun holds => holds
      · cases stepped
  | openDone id now =>
      simp only [StagedFile.step, StagedFile.openDone] at stepped
      split at stepped
      · rename_i prepared _
        obtain rfl := Option.some.inj stepped
        exact locked.replace rfl (by rintro _ ⟨⟩)
          (Or.inr (Or.inr (locked.op id _ prepared rfl))) fun holds => holds
      · rename_i prepared _
        obtain rfl := Option.some.inj stepped
        exact locked.replace rfl (by rintro _ ⟨⟩)
          (Or.inr (Or.inr (locked.op id _ prepared rfl))) fun holds => holds
      · cases stepped
  | setattr id newSize =>
      simp only [StagedFile.step, StagedFile.setattr] at stepped
      split at stepped
      · obtain rfl := Option.some.inj stepped
        exact locked.replace rfl (by rintro _ ⟨⟩ ⟨⟩) (Or.inl rfl)
          fun holds => holds
      · cases stepped
  | setattrEnter id =>
      simp only [StagedFile.step, StagedFile.setattrEnter] at stepped
      split at stepped
      · rename_i free
        have ready : ∀ place content next, Locked
            { (before.placeFile place content).setOp id next with
              lock := some (.op id) } := by
          intro place content next
          apply locked.replace (by simp [StagedFile.setOp]; rfl)
            (fun _ _ _ => rfl) (Or.inr (Or.inl free))
          exact placedFlush place content
        split at stepped
        · obtain rfl := Option.some.inj stepped
          exact locked.replace rfl (fun _ _ _ => rfl) (Or.inr (Or.inl free))
            fun holds => holds
        split at stepped
        · split at stepped <;> obtain rfl := Option.some.inj stepped
          · exact ready _ _ _
          · exact locked.replace rfl (by rintro _ ⟨⟩) (Or.inl rfl)
              fun holds => holds
        · obtain rfl := Option.some.inj stepped
          exact ready _ _ _
      · cases stepped
  | setattrApply id now =>
      simp only [StagedFile.step, StagedFile.setattrApply] at stepped
      split at stepped
      · rename_i ready _
        obtain rfl := Option.some.inj stepped
        apply locked.replace (by simp [StagedFile.setOp, StagedFile.finishOp]; rfl)
          (by rintro _ ⟨⟩) (Or.inr (Or.inr (locked.op id _ ready rfl)))
        exact placedFlush _ _
      · rename_i ready _
        obtain rfl := Option.some.inj stepped
        exact locked.replace rfl (by rintro _ ⟨⟩)
          (Or.inr (Or.inr (locked.op id _ ready rfl))) fun holds => holds
      · cases stepped
  | pwrite id handle offset data =>
      simp only [StagedFile.step, StagedFile.pwrite] at stepped
      split at stepped
      · split at stepped
        · obtain rfl := Option.some.inj stepped
          refine locked.replace rfl ?_ (Or.inl rfl) ?_
          · rintro _ ⟨⟩ ⟨⟩
          dsimp only
          split
          · rw [disturb_holdsLock]
            exact fun holds => holds
          · exact fun holds => holds
        · cases stepped
      · cases stepped
  | writeDone id =>
      simp only [StagedFile.step, StagedFile.writeDone] at stepped
      split at stepped
      · obtain rfl := Option.some.inj stepped
        exact locked.replace rfl (by rintro _ ⟨⟩) (Or.inl rfl)
          fun holds => holds
      · cases stepped
  | gcOne =>
      simp only [StagedFile.step, StagedFile.gcOne] at stepped
      split at stepped
      · split at stepped <;> obtain rfl := Option.some.inj stepped
        · exact locked
        · exact locked.flushed rfl (Or.inl ⟨rfl, fun holds => holds⟩)
      · cases stepped
  | flushLock =>
      simp only [StagedFile.step, StagedFile.flushLock] at stepped
      split at stepped
      · rename_i free
        obtain rfl := Option.some.inj stepped
        exact locked.flushed rfl (Or.inr (Or.inl ⟨free, rfl⟩))
      · cases stepped
  | flushSnapshot =>
      simp only [StagedFile.step, StagedFile.flushSnapshot] at stepped
      split at stepped
      · rename_i phase
        have mine := locked.flush (by rw [phase]; rfl)
        split at stepped <;> obtain rfl := Option.some.inj stepped
        · exact locked.flushed rfl (Or.inl ⟨rfl, fun _ => by rw [phase]; rfl⟩)
        · exact locked.flushed rfl (Or.inr (Or.inr ⟨mine, rfl⟩))
      · cases stepped
  | uploadOk content =>
      simp only [StagedFile.step, StagedFile.uploadOk] at stepped
      split at stepped
      · rename_i phase _
        split at stepped
        · cases stepped
        obtain rfl := Option.some.inj stepped
        exact locked.flushed rfl (Or.inl ⟨rfl, fun _ => by rw [phase]; rfl⟩)
      · cases stepped
  | uploadFail =>
      simp only [StagedFile.step, StagedFile.uploadFail] at stepped
      split at stepped
      · rename_i phase
        have mine := locked.flush (by rw [phase]; rfl)
        obtain rfl := Option.some.inj stepped
        exact locked.flushed rfl (Or.inr (Or.inr ⟨mine, rfl⟩))
      · cases stepped
  | flushUnlock =>
      simp only [StagedFile.step, StagedFile.flushUnlock] at stepped
      split at stepped
      · rename_i phase
        have mine := locked.flush (by rw [phase]; rfl)
        obtain rfl := Option.some.inj stepped
        exact locked.flushed rfl (Or.inr (Or.inr ⟨mine, rfl⟩))
      · cases stepped
  | flushUnchanged now =>
      simp only [StagedFile.step, StagedFile.flushUnchanged] at stepped
      split at stepped
      · split at stepped
        · obtain rfl := Option.some.inj stepped
          exact locked.flushed rfl (Or.inl ⟨rfl, by rintro ⟨⟩⟩)
        · cases stepped
      · cases stepped
  | hubOk =>
      simp only [StagedFile.step, StagedFile.hubOk] at stepped
      split at stepped
      · split at stepped
        · cases stepped
        obtain rfl := Option.some.inj stepped
        exact locked.flushed rfl (Or.inl ⟨rfl, by rintro ⟨⟩⟩)
      · cases stepped
  | hubFail =>
      simp only [StagedFile.step, StagedFile.hubFail] at stepped
      split at stepped
      · split at stepped
        · cases stepped
        obtain rfl := Option.some.inj stepped
        exact locked.flushed rfl (Or.inl ⟨rfl, by rintro ⟨⟩⟩)
      · cases stepped
  | applyCommit now =>
      simp only [StagedFile.step, StagedFile.applyCommit] at stepped
      split at stepped
      · obtain rfl := Option.some.inj stepped
        exact locked.flushed rfl (Or.inl ⟨rfl, by rintro ⟨⟩⟩)
      · cases stepped

end StagingCache

end HfMount.Flush
