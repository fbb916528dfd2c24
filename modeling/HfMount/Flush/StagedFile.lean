import HfMount.Inode.Entry
import HfMount.Lib.Transition

/-!
# One staged file and its flush

In advanced-writes mode a file is edited in a staging file on disk and
`flush_batch` uploads it later.  The state below is one such inode with its
staging file, the operations in progress on it, and the single flush that may
be running; each step is one stretch of the source between two points where
another task can run.  Files are numbered so that a handle keeps the file it
opened when another one takes its place under the staging path.
-/

namespace HfMount.Flush

open SlashPath Inode

/-- The snapshot that `flush_batch` takes of a dirty inode. -/
structure FlushItem where
  ino : Ino
  fullPath : Path
  pendingDeletes : List Path
  dirtyGeneration : Nat
  prevXetHash : Option Hash
  deriving DecidableEq

/-- The snapshot of an inode that is due: linked, dirty, and staged. -/
def snapshotItem (entry : InodeEntry) (stagingExists : Bool) :
    Option FlushItem :=
  if entry.nlink = 0 then none
  else if !entry.isDirty then none
  else if !stagingExists then none
  else some
    { ino := entry.inode
      fullPath := entry.fullPath
      pendingDeletes := entry.pendingDeletes
      dirtyGeneration := entry.dirtyGeneration
      prevXetHash := entry.xetHash }

/-- The upload produced the recorded hash and no delete is owed, so the Hub
commit is skipped. -/
def FlushItem.unchanged (item : FlushItem) (uploaded : Hash) : Bool :=
  item.pendingDeletes.isEmpty && item.prevXetHash == some uploaded

/-- How far a flush has come.  An upload is undisturbed while the staging file
has not changed since it began. -/
inductive FlushPhase where
  | idle
  | locked
  | uploading (item : FlushItem) (undisturbed : Bool)
  | uploaded (item : FlushItem) (content : Bytes)
  | released (item : FlushItem) (content : Bytes)
  | committed (item : FlushItem) (content : Bytes)
  deriving DecidableEq

namespace FlushPhase

@[simp] def item : FlushPhase → Option FlushItem
  | .idle | .locked => none
  | .uploading item _ | .uploaded item _ | .released item _
  | .committed item _ => some item

@[simp] def content : FlushPhase → Option Bytes
  | .idle | .locked | .uploading _ _ => none
  | .uploaded _ content | .released _ content | .committed _ content =>
      some content

def disturb : FlushPhase → FlushPhase
  | .uploading item _ => .uploading item false
  | phase => phase

end FlushPhase

/-- An operation in progress.  An open is waiting for the lock, then holds it
with the cache flag cleared, then has rewritten the staging file, then is
ready to mark the inode dirty; `changed` says whether the operation has
changed the staging file. -/
inductive FileOp where
  | opening (hash : Hash) (size : Nat) (truncate : Bool)
  | preparing (hash : Hash) (size : Nat) (truncate : Bool)
  | filled (hash : Hash) (size : Nat) (truncate : Bool)
  | prepared (truncate changed : Bool)
  | truncating (newSize : Nat)
  | truncateReady (newSize : Nat) (changed : Bool)
  | writing (newEnd : Nat) (changed : Bool)
  deriving DecidableEq

@[simp] def FileOp.changed : FileOp → Bool
  | .opening _ _ _ | .preparing _ _ _ | .truncating _ => false
  | .filled _ _ _ => true
  | .prepared _ changed | .truncateReady _ changed | .writing _ changed =>
      changed

inductive LockHolder where
  | flush
  | op (id : Nat)
  deriving DecidableEq

structure StagedFile where
  entry : InodeEntry
  staging : Option Nat
  disk : Nat → Bytes
  nextFile : Nat
  handles : List Nat
  lock : Option LockHolder
  op : Nat → Option FileOp
  flush : FlushPhase
  /-- What the Hub holds for the file. -/
  remote : Option Bytes

inductive FileEvent where
  | openStart (id : Nat) (truncate : Bool)
  | openEnter (id : Nat)
  | openFill (id : Nat) (replaced : Bool)
  | openMark (id : Nat)
  | openDone (id : Nat) (now : Time)
  | setattr (id newSize : Nat)
  | setattrEnter (id : Nat)
  | setattrApply (id : Nat) (now : Time)
  | pwrite (id file offset : Nat) (data : Bytes)
  | writeDone (id : Nat)
  | gcOne
  | flushLock
  | flushSnapshot
  | uploadOk (content : Bytes)
  | uploadFail
  | flushUnlock
  | flushUnchanged (now : Time)
  | hubOk
  | hubFail
  | applyCommit (now : Time)
  deriving DecidableEq

/-- `pwrite` into a file, with a hole of zeros when it starts past the end. -/
def writeAt (content : Bytes) (offset : Nat) (data : Bytes) : Bytes :=
  if data.isEmpty then content
  else
    content.take offset ++ List.replicate (offset - content.length) 0 ++ data ++
      content.drop (offset + data.length)

def setLen (content : Bytes) (size : Nat) : Bytes :=
  content.take size ++ List.replicate (size - content.length) 0

/-- An open without `O_TRUNC` of a file with remote content downloads it. -/
def needsDownload (hash : Hash) (size : Nat) (truncate : Bool) : Bool :=
  !truncate && !hash.isEmpty && decide (0 < size)

namespace StagedFile

/-- Put a file with this content under the staging path: in the file that is
there, or in a new one. -/
def placeFile (file : StagedFile) (replaced : Bool) (content : Bytes) :
    StagedFile :=
  match file.staging, replaced with
  | some old, false =>
      { file with
        disk := Function.update file.disk old content
        flush := file.flush.disturb }
  | _, _ =>
      { file with
        staging := some file.nextFile
        disk := Function.update file.disk file.nextFile content
        nextFile := file.nextFile + 1
        flush := file.flush.disturb }

def setOp (file : StagedFile) (id : Nat) (op : Option FileOp) : StagedFile :=
  { file with op := Function.update file.op id op }

/-- The operation is over and gives the lock back. -/
def finishOp (file : StagedFile) (id : Nat) : StagedFile :=
  { file.setOp id none with lock := none }

/-- `open` reads the hash and the size before it waits for the lock. -/
def openStart (file : StagedFile) (id : Nat) (truncate : Bool) :
    Option StagedFile :=
  match file.op id with
  | none => some (file.setOp id
      (some (.opening (file.entry.xetHash.getD []) file.entry.size truncate)))
  | some _ => none

/-- `can_reuse_staging` in `open_advanced_write`. -/
def canReuseStaging (file : StagedFile) (truncate : Bool) : Bool :=
  !truncate && (file.entry.isDirty || file.entry.stagingIsCurrent) &&
    file.staging.isSome

def openEnter (file : StagedFile) (id : Nat) : Option StagedFile :=
  match file.op id, file.lock with
  | some (.opening hash size truncate), none =>
      if file.canReuseStaging truncate then
        some { file.setOp id (some (.prepared truncate false)) with
          lock := some (.op id) }
      else
        some { file.setOp id (some (.preparing hash size truncate)) with
          lock := some (.op id)
          entry := { file.entry with stagingIsCurrent := false } }
  | _, _ => none

def openFill (store : ContentStore) (file : StagedFile) (id : Nat)
    (replaced : Bool) : Option StagedFile :=
  match file.op id with
  | some (.preparing hash size truncate) =>
      if needsDownload hash size truncate then
        match store.fetch hash with
        | some content => some ((file.placeFile replaced content).setOp id
            (some (.filled hash size truncate)))
        | none => some (file.finishOp id)
      else
        some ((file.placeFile false []).setOp id
          (some (.filled hash size truncate)))
  | _ => none

/-- Flag the cache as current when it mirrors the remote and the hash has not
moved meanwhile. -/
def markedEntry (entry : InodeEntry) (hash : Hash) (size : Nat)
    (truncate : Bool) : InodeEntry :=
  let materializesRemote :=
    needsDownload hash size truncate || (hash.isEmpty && size == 0)
  if materializesRemote && entry.xetHash.getD [] == hash then
    { entry with stagingIsCurrent := true }
  else entry

def openMark (file : StagedFile) (id : Nat) : Option StagedFile :=
  match file.op id with
  | some (.filled hash size truncate) =>
      some { file.setOp id (some (.prepared truncate true)) with
        entry := markedEntry file.entry hash size truncate }
  | _ => none

/-- The entry once an open has marked it dirty and installed its handle. -/
def openedEntry (entry : InodeEntry) (truncate : Bool) (now : Time) :
    InodeEntry :=
  let dirty := entry.setDirty
  { dirty with
    size := if truncate then 0 else dirty.size
    mtime := if truncate then now else dirty.mtime
    ctime := if truncate then now else dirty.ctime
    eviction := { dirty.eviction with
      openHandles := dirty.eviction.openHandles + 1 } }

def openDone (file : StagedFile) (id : Nat) (now : Time) :
    Option StagedFile :=
  match file.op id, file.staging with
  | some (.prepared truncate _), some opened =>
      some { file.finishOp id with
        entry := openedEntry file.entry truncate now
        handles := opened :: file.handles }
  | some (.prepared _ _), none => some (file.finishOp id)
  | _, _ => none

def setattr (file : StagedFile) (id newSize : Nat) : Option StagedFile :=
  match file.op id with
  | none => some (file.setOp id (some (.truncating newSize)))
  | some _ => none

/-- A truncation of a file without a staging file downloads it first, unless
nothing of it is kept. -/
def setattrEnter (store : ContentStore) (file : StagedFile) (id : Nat) :
    Option StagedFile :=
  match file.op id, file.lock with
  | some (.truncating newSize), none =>
      let ready (staged : StagedFile) (changed : Bool) : StagedFile :=
        { staged.setOp id (some (.truncateReady newSize changed)) with
          lock := some (.op id) }
      if file.staging.isSome then some (ready file false)
      else if needsDownload (file.entry.xetHash.getD []) file.entry.size
          (newSize == 0) then
        match store.fetch (file.entry.xetHash.getD []) with
        | some content => some (ready (file.placeFile true content) true)
        | none => some (file.setOp id none)
      else some (ready (file.placeFile false []) true)
  | _, _ => none

/-- The entry once `setattr` has applied the new size. -/
def truncatedEntry (entry : InodeEntry) (newSize : Nat) (now : Time) :
    InodeEntry :=
  let dirty := entry.setDirty
  { dirty with
    size := newSize
    mtime := now
    ctime := now
    xetHash := if newSize = 0 then none else dirty.xetHash }

def setattrApply (file : StagedFile) (id : Nat) (now : Time) :
    Option StagedFile :=
  match file.op id, file.staging with
  | some (.truncateReady newSize _), some staged =>
      some { (file.placeFile false
          (if newSize = 0 then [] else setLen (file.disk staged) newSize)).finishOp
            id with
        entry := truncatedEntry file.entry newSize now }
  | some (.truncateReady _ _), none => some (file.finishOp id)
  | _, _ => none

def pwrite (file : StagedFile) (id handle offset : Nat) (data : Bytes) :
    Option StagedFile :=
  match file.op id with
  | none =>
      if handle ∈ file.handles then
        let staged := file.staging == some handle
        some { file.setOp id (some (.writing (offset + data.length) staged)) with
          disk := Function.update file.disk handle
            (writeAt (file.disk handle) offset data)
          flush := if staged then file.flush.disturb else file.flush }
      else none
  | some _ => none

def writeDone (file : StagedFile) (id : Nat) : Option StagedFile :=
  match file.op id with
  | some (.writing newEnd _) =>
      let grown := { file.entry with size := max file.entry.size newEnd }
      some { file.setOp id none with entry := grown.setDirty }
  | _ => none

/-- `StagingCoordinator::gc_one` on this inode. -/
def gcOne (file : StagedFile) : Option StagedFile :=
  match file.lock with
  | none =>
      if file.entry.isDirty then some file else some { file with staging := none }
  | some _ => none

def flushLock (file : StagedFile) : Option StagedFile :=
  match file.flush, file.lock with
  | .idle, none => some { file with flush := .locked, lock := some .flush }
  | _, _ => none

def flushSnapshot (file : StagedFile) : Option StagedFile :=
  match file.flush with
  | .locked =>
      match snapshotItem file.entry file.staging.isSome with
      | some item => some { file with flush := .uploading item true }
      | none => some { file with flush := .idle, lock := none }
  | _ => none

/-- An undisturbed upload reads the staging file; a disturbed one may have
read any mixture. -/
def uploadOk (file : StagedFile) (content : Bytes) : Option StagedFile :=
  match file.flush, file.staging with
  | .uploading item undisturbed, some staged =>
      if undisturbed && content != file.disk staged then none
      else some { file with flush := .uploaded item content }
  | _, _ => none

def uploadFail (file : StagedFile) : Option StagedFile :=
  match file.flush with
  | .uploading _ _ => some { file with flush := .idle, lock := none }
  | _ => none

def flushUnlock (file : StagedFile) : Option StagedFile :=
  match file.flush with
  | .uploaded item content =>
      some { file with flush := .released item content, lock := none }
  | _ => none

def flushUnchanged (store : ContentStore) (file : StagedFile) (now : Time) :
    Option StagedFile :=
  match file.flush with
  | .released item content =>
      if item.unchanged (store.hash content) then
        some { file with
          flush := .idle
          entry := file.entry.applyCommit (store.hash content) content.length
            item.dirtyGeneration now }
      else none
  | _ => none

def hubOk (store : ContentStore) (file : StagedFile) : Option StagedFile :=
  match file.flush with
  | .released item content =>
      if item.unchanged (store.hash content) then none
      else some { file with
        flush := .committed item content
        remote := some content }
  | _ => none

def hubFail (store : ContentStore) (file : StagedFile) : Option StagedFile :=
  match file.flush with
  | .released item content =>
      if item.unchanged (store.hash content) then none
      else some { file with flush := .idle }
  | _ => none

def applyCommit (store : ContentStore) (file : StagedFile) (now : Time) :
    Option StagedFile :=
  match file.flush with
  | .committed item content =>
      some { file with
        flush := .idle
        entry := file.entry.applyCommit (store.hash content) content.length
          item.dirtyGeneration now }
  | _ => none

def step (store : ContentStore) (file : StagedFile) :
    FileEvent → Option StagedFile
  | .openStart id truncate => file.openStart id truncate
  | .openEnter id => file.openEnter id
  | .openFill id replaced => file.openFill store id replaced
  | .openMark id => file.openMark id
  | .openDone id now => file.openDone id now
  | .setattr id newSize => file.setattr id newSize
  | .setattrEnter id => file.setattrEnter store id
  | .setattrApply id now => file.setattrApply id now
  | .pwrite id handle offset data => file.pwrite id handle offset data
  | .writeDone id => file.writeDone id
  | .gcOne => file.gcOne
  | .flushLock => file.flushLock
  | .flushSnapshot => file.flushSnapshot
  | .uploadOk content => file.uploadOk content
  | .uploadFail => file.uploadFail
  | .flushUnlock => file.flushUnlock
  | .flushUnchanged now => file.flushUnchanged store now
  | .hubOk => file.hubOk store
  | .hubFail => file.hubFail store
  | .applyCommit now => file.applyCommit store now

end StagedFile

end HfMount.Flush
