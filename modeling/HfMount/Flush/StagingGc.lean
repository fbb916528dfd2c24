import HfMount.Flush.CacheTruth

/-!
# Collecting staging files

When the staging files exceed their budget, a flush scans for clean inodes that
nobody has open, and the last close of an inode looks at that inode.  Either
way `gcOne` comes later: it waits for the lock of the inode and re-checks only
that the inode is clean.  Any number of such passes may be under way for one
inode, among opens, writes, releases and flushes.
-/

namespace HfMount.Flush

open Inode Transition

/-- How far a pass has come.  The last close has seen that no handle is left,
then a pass has chosen the inode; `gcOne` locks, re-checks and removes. -/
inductive GcPass where
  | closing
  | chosen
  | locked
  | checked (stillClean : Bool)
  | finished
  deriving DecidableEq

namespace GcPass

/-- The re-check is still to come. -/
def isPending : GcPass → Bool
  | .closing | .chosen | .locked => true
  | .checked _ | .finished => false

def holdsLock : GcPass → Bool
  | .locked | .checked _ => true
  | .closing | .chosen | .finished => false

end GcPass

structure StagingGc where
  cache : StagingCache
  passes : List GcPass
  /-- The pass that holds the lock of the inode. -/
  holder : Option Nat
  /-- The writes in progress. -/
  writes : List Nat
  /-- Handles that are open for reading. -/
  readers : Nat

inductive GcEvent where
  | cache (event : CacheEvent)
  | openReadonly
  | closeReadonly
  /-- A release takes one writable handle away. -/
  | close (handle : Nat)
  /-- A release finds that no handle is left. -/
  | lastClose
  /-- A scan over the budget picks the inode. -/
  | scan
  /-- The next step of a pass. -/
  | pass (id : Nat)
  deriving DecidableEq

/-- Opens, truncations, writes and flushes, not an operation that fails under
the lock and nothing that comes in from the remote. -/
def CacheEvent.isPlain : CacheEvent → Bool
  | .file _ | .encryptedEnter _ | .encryptedFill _ _ | .encryptedMark _
  | .encryptedDone _ _ | .encryptedWrite _ _ _ | .cancel _ => true
  | .fail _ _ | .setattrFails _ _ | .updateRemote _ _ _ _ _
  | .mergeRemote _ _ _ => false

def GcEvent.isPlain : GcEvent → Bool
  | .cache event => event.isPlain
  | _ => true

/-- The event waits for the lock of the inode. -/
def CacheEvent.takesLock : CacheEvent → Bool
  | .file (.openEnter _) | .file (.setattrEnter _) | .file .flushLock
  | .encryptedEnter _ | .setattrFails _ _ => true
  | _ => false

namespace StagingGc

/-- A write is in progress until it has marked the inode dirty. -/
def writesAfter (state : StagingGc) : CacheEvent → List Nat
  | .file (.pwrite id _ _ _) | .encryptedWrite id _ _ => id :: state.writes
  | .file (.writeDone id) => state.writes.filter fun write => write ≠ id
  | _ => state.writes

def setEntry (state : StagingGc) (entry : InodeEntry) : StagingGc :=
  { state with cache := { state.cache with
      file := { state.cache.file with entry } } }

def withHandles (entry : InodeEntry) (openHandles : Nat) : InodeEntry :=
  { entry with eviction := { entry.eviction with openHandles } }

/-- The kernel releases a handle after the writes through it, so the last one
after all writes. -/
def close (state : StagingGc) (handle : Nat) : Option StagingGc :=
  let file := state.cache.file
  if handle ∈ file.handles ∧
      (file.handles.erase handle = [] → state.writes = []) then
    some { state with cache := { state.cache with
      file := { file with
        handles := file.handles.erase handle
        entry := withHandles file.entry
          (file.entry.eviction.openHandles - 1) } } }
  else none

/-- A candidate of `staging_gc_candidates`. -/
def isCandidate (entry : InodeEntry) : Bool :=
  entry.kind = .file && decide (0 < entry.nlink) && !entry.isDirty &&
    entry.pendingDeletes.isEmpty && entry.eviction.openHandles == 0

def setPass (state : StagingGc) (id : Nat) (pass : GcPass) : StagingGc :=
  { state with passes := state.passes.set id pass }

/-- `reapOnLastRelease` goes on to `gcOne` when the inode is clean. -/
def advancePass (state : StagingGc) (id : Nat) : GcPass → Option StagingGc
  | .closing =>
      some (state.setPass id
        (if state.cache.file.entry.isDirty then .finished else .chosen))
  | .chosen =>
      if state.holder = none ∧ state.cache.file.lock = none then
        some { state.setPass id .locked with holder := some id }
      else none
  | .locked =>
      some (state.setPass id (.checked (!state.cache.file.entry.isDirty)))
  | .checked stillClean =>
      some { state.setPass id .finished with
        holder := none
        cache := if stillClean then { state.cache with
            file := { state.cache.file with staging := none } }
          else state.cache }
  | .finished => none

def step (format : StagingFormat) (store : ContentStore) (state : StagingGc) :
    GcEvent → Option StagingGc
  | .cache event =>
      -- `gcOne` has steps of its own.
      if event ≠ .file .gcOne ∧
          ¬ (event.takesLock ∧ state.holder.isSome) then
        (state.cache.step format store event).map fun cache => { state with
          cache
          writes := state.writesAfter event }
      else none
  | .openReadonly =>
      some { state.setEntry (withHandles state.cache.file.entry
          (state.cache.file.entry.eviction.openHandles + 1)) with
        readers := state.readers + 1 }
  | .closeReadonly =>
      if 0 < state.readers then
        some { state.setEntry (withHandles state.cache.file.entry
            (state.cache.file.entry.eviction.openHandles - 1)) with
          readers := state.readers - 1 }
      else none
  | .close handle => state.close handle
  | .lastClose =>
      if state.cache.file.entry.hasOpenHandles then none
      else some { state with passes := state.passes ++ [.closing] }
  | .scan =>
      if isCandidate state.cache.file.entry then
        some { state with passes := state.passes ++ [.chosen] }
      else none
  | .pass id => state.passes[id]?.bind (state.advancePass id)

/-- The commit of the flush will clear the dirty flag. -/
def clearsDirty (file : StagedFile) : Bool :=
  file.flush.item.any fun item =>
    item.dirtyGeneration = file.entry.dirtyGeneration

/-- No commit makes the inode clean while a writable handle is open and a pass
that has chosen the inode has not re-checked it yet. -/
def CommitsApart (state : StagingGc) : GcEvent → Prop
  | .cache (.file (.flushUnchanged _)) | .cache (.file (.applyCommit _)) =>
      clearsDirty state.cache.file = true → state.cache.file.handles ≠ [] →
        ∀ pass ∈ state.passes, pass.isPending = false
  | _ => True

instance (state : StagingGc) (event : GcEvent) :
    Decidable (state.CommitsApart event) := by
  unfold CommitsApart
  split <;> infer_instance

/-- A file that was listed and never staged, or that was just created through
the handle that it has. -/
structure Initial (state : StagingGc) : Prop where
  start : state.cache.Initial
  unlocked : state.cache.file.lock = none
  noPasses : state.passes = []
  noHolder : state.holder = none
  noWrites : state.writes = []
  counted : state.cache.file.entry.eviction.openHandles =
    state.cache.file.handles.length + state.readers
  attached : ∀ handle ∈ state.cache.file.handles,
    state.cache.file.staging = some handle

/-- The staging file that a pass is about to remove is that of a clean inode
without a writable handle. -/
def RemovesClosed (state : StagingGc) : Prop :=
  .checked true ∈ state.passes →
    state.cache.file.entry.isDirty = false ∧ state.cache.file.handles = []

/-- What is written through a handle goes to the file that the next flush
uploads. -/
def WritesLand (state : StagingGc) : Prop :=
  ∀ handle ∈ state.cache.file.handles, state.cache.file.staging = some handle

end StagingGc

end HfMount.Flush
