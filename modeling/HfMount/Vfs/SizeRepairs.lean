import HfMount.Vfs.SizeProbes
import HfMount.Vfs.StagingBudget

/-!
# Size probes beside polls, revalidations and local changes

A pass over the flagged files takes a snapshot, probes the objects, and writes
the sizes back, while polls and revalidations bring other objects and local
changes are committed.  A step is one stretch of the source between two points
where another task can run.  Of a staging file the state has the plaintext size
in its container.
-/

namespace HfMount.Vfs

open SlashPath Inode Poll Flush Transition

/-- What the header of a staging file says; nothing if it is no container. -/
abbrev StagedHeader := Option Nat

/-- A task in progress.  From `ensuring` to `resized` it holds the staging lock
of its inode; `object` is what it has to download. -/
inductive SizeTask where
  | repairing (pending : List SizeProbe)
      (probed : List (SizeProbe × Option Nat))
  | comparing (entries : List TreeEntry) (prefixes : List Path)
      (snapshot : List InodeEntry)
  | ensuring (ino : Ino) (call : EncryptedCall) (object : Option Hash)
  | ensured (ino : Ino) (call : EncryptedCall)
  | resized (ino : Ino) (newSize : Nat)
  | writing (ino : Ino) (newPlaintext : Nat)

namespace SizeTask

def isLocal : SizeTask → Bool
  | .repairing _ _ | .comparing _ _ _ => false
  | .ensuring _ _ _ | .ensured _ _ | .resized _ _ | .writing _ _ => true

def locked : SizeTask → Option Ino
  | .ensuring ino _ _ | .ensured ino _ | .resized ino _ => some ino
  | .repairing _ _ | .comparing _ _ _ | .writing _ _ => none

/-- The size that the task has given the container and is about to record. -/
def leaves : SizeTask → Option (Ino × Nat)
  | .ensured ino (.opening true) => some (ino, 0)
  | .resized ino newSize => some (ino, newSize)
  | .writing ino newPlaintext => some (ino, newPlaintext)
  | _ => none

end SizeTask

/-- The flush of one inode: the upload, which holds the staging lock, and the
commit of what it has uploaded. -/
inductive SizeFlush where
  | uploading (item : FlushItem)
  | uploaded (item : FlushItem) (hash : Hash) (size : Nat)
  deriving DecidableEq

@[simp] def SizeFlush.item : SizeFlush → FlushItem
  | .uploading item | .uploaded item _ _ => item

structure SizeRepairs where
  table : InodeTable
  staged : Ino → Option StagedHeader
  lock : Ino → Option LockHolder
  tasks : Nat → Option SizeTask
  flush : Ino → Option SizeFlush

inductive SizeEvent where
  | repair (id : Nat)
  | probe (id : Nat) (probe : SizeProbe) (reachable : Bool)
  | writeBack (id : Nat)
  | compare (id : Nat) (entries : List TreeEntry) (prefixes : List Path)
  | applyDiff (id : Nat) (now : Time)
  | revalidate (call : Revalidation) (answer : HeadAnswer) (reachable : Bool)
      (now : Time)
  | encryptedEnter (id : Nat) (ino : Ino) (call : EncryptedCall)
  | encryptedFill (id : Nat)
  | encryptedTruncate (id : Nat)
  | encryptedDone (id : Nat) (now : Time)
  | encryptedWrite (id : Nat) (ino : Ino) (newPlaintext : Nat)
  | writeDone (id : Nat)
  /-- A local change fails; the container may be any. -/
  | fail (id : Nat) (left : Option StagedHeader)
  | flushSnapshot (ino : Ino)
  | upload (ino : Ino) (hash : Hash) (size : Nat)
  | flushFails (ino : Ino)
  | commit (ino : Ino) (now : Time)

namespace SizeRepairs

def setTask (state : SizeRepairs) (id : Nat) (task : Option SizeTask) :
    SizeRepairs :=
  { state with tasks := Function.update state.tasks id task }

def setStaged (state : SizeRepairs) (ino : Ino)
    (container : Option StagedHeader) : SizeRepairs :=
  { state with staged := Function.update state.staged ino container }

def setLock (state : SizeRepairs) (ino : Ino) (holder : Option LockHolder) :
    SizeRepairs :=
  { state with lock := Function.update state.lock ino holder }

def setFlush (state : SizeRepairs) (ino : Ino) (flush : Option SizeFlush) :
    SizeRepairs :=
  { state with flush := Function.update state.flush ino flush }

/-! ## Repairs, polls and revalidations -/

def repair (state : SizeRepairs) (id : Nat) : Option SizeRepairs :=
  match state.tasks id with
  | none => some (state.setTask id
      (some (.repairing (pendingSizeProbes state.table) [])))
  | some _ => none

/-- The probes run at the same time and end in any order. -/
def probe (mount : EncryptedMount) (state : SizeRepairs) (id : Nat)
    (probe : SizeProbe) (reachable : Bool) : Option SizeRepairs :=
  match state.tasks id with
  | some (.repairing pending probed) =>
      if probe ∈ pending then
        some (state.setTask id (some (.repairing (pending.erase probe)
          (probed ++ [(probe, mount.probePlaintextSizeWith reachable
            probe.xetHash probe.cipherSize)]))))
      else none
  | _ => none

def writeBack (state : SizeRepairs) (id : Nat) : Option SizeRepairs :=
  match state.tasks id with
  | some (.repairing [] probed) =>
      some { state.setTask id none with
        table := writeBackSizes state.table probed }
  | _ => none

def compare (state : SizeRepairs) (id : Nat) (entries : List TreeEntry)
    (prefixes : List Path) : Option SizeRepairs :=
  match state.tasks id with
  | none => some (state.setTask id
      (some (.comparing entries prefixes state.table.fileSnapshot)))
  | some _ => none

def applyDiff (state : SizeRepairs) (id : Nat) (now : Time) :
    Option SizeRepairs :=
  match state.tasks id with
  | some (.comparing entries prefixes snapshot) =>
      some { state.setTask id none with
        table := applyPollSnapshot snapshot entries prefixes now state.table }
  | _ => none

/-- What the lookup has read, and the answer and the probe, may be old. -/
def revalidate (mount : EncryptedMount) (state : SizeRepairs)
    (call : Revalidation) (answer : HeadAnswer) (reachable : Bool)
    (now : Time) : SizeRepairs :=
  { state with
    table := (revalidateFile mount.settings state.table call answer
      (mount.probeAnswer reachable answer) now).1 }

/-! ## Local changes -/

/-- `ensureEncryptedStaging` up to the download. -/
def encryptedEnter (state : SizeRepairs) (id : Nat) (ino : Ino)
    (call : EncryptedCall) : Option SizeRepairs :=
  match state.tasks id, state.lock ino, state.table.get ino with
  | none, none, some entry =>
      let reuses := !call.forceFresh && (state.staged ino).isSome &&
        (entry.isDirty || entry.stagingIsCurrent)
      let task : SizeTask :=
        if reuses then .ensured ino call
        else .ensuring ino call
          (if !call.forceFresh && StagingRun.hasObject entry then entry.xetHash
            else none)
      some ((state.setTask id (some task)).setLock ino (some (.op id)))
  | _, _, _ => none

/-- The object is there, or a fresh container. -/
def encryptedFill (mount : EncryptedMount) (state : SizeRepairs) (id : Nat) :
    Option SizeRepairs :=
  match state.tasks id with
  | some (.ensuring ino call (some hash)) =>
      some { (state.setTask id (some (.ensured ino call))).setStaged ino
          (some (mount.objects hash)) with
        table := state.table.modify ino fun entry =>
          { entry with stagingIsCurrent := true } }
  | some (.ensuring ino call none) =>
      some ((state.setTask id (some (.ensured ino call))).setStaged ino
        (some (some 0)))
  | _ => none

/-- The container gets its new size. -/
def encryptedTruncate (state : SizeRepairs) (id : Nat) : Option SizeRepairs :=
  match state.tasks id with
  | some (.ensured ino (.truncating newSize)) =>
      match state.staged ino with
      | some (some _) =>
          some ((state.setTask id (some (.resized ino newSize))).setStaged ino
            (some (some newSize)))
      | _ => none
  | _ => none

/-- The task is over and gives the lock back. -/
def finish (state : SizeRepairs) (id : Nat) (ino : Ino)
    (change : InodeEntry → InodeEntry) : SizeRepairs :=
  { (state.setTask id none).setLock ino none with
    table := state.table.modify ino change }

/-- An overflow of the container size stops a truncation. -/
def encryptedDone (state : SizeRepairs) (id : Nat) (now : Time) :
    Option SizeRepairs :=
  match state.tasks id with
  | some (.ensured ino (.opening truncate)) =>
      some (state.finish id ino fun entry =>
        StagingRun.encryptedEntry entry (.opening truncate) now)
  | some (.resized ino newSize) =>
      if (Encryption.Content.ciphertextSize newSize).isSome then
        some (state.finish id ino fun entry =>
          StagingRun.encryptedEntry entry (.truncating newSize) now)
      else none
  | _ => none

/-- A write changes the container before it takes the lock of the table. -/
def encryptedWrite (state : SizeRepairs) (id : Nat) (ino : Ino)
    (newPlaintext : Nat) : Option SizeRepairs :=
  match state.tasks id, state.staged ino with
  | none, some (some _) =>
      some ((state.setTask id (some (.writing ino newPlaintext))).setStaged ino
        (some (some newPlaintext)))
  | _, _ => none

def writeDone (state : SizeRepairs) (id : Nat) : Option SizeRepairs :=
  match state.tasks id with
  | some (.writing ino newPlaintext) =>
      some { state.setTask id none with
        table := state.table.modify ino fun entry =>
          { entry with size := newPlaintext }.setDirty }
  | _ => none

def fail (state : SizeRepairs) (id : Nat) (left : Option StagedHeader) :
    Option SizeRepairs :=
  match state.tasks id with
  | some (.ensuring ino _ _) | some (.ensured ino _)
  | some (.resized ino _) =>
      some (((state.setTask id none).setLock ino none).setStaged ino left)
  | some (.writing ino _) => some ((state.setTask id none).setStaged ino left)
  | _ => none

/-! ## Commits -/

def flushSnapshot (state : SizeRepairs) (ino : Ino) : Option SizeRepairs :=
  match state.flush ino, state.lock ino, state.table.get ino with
  | none, none, some entry =>
      (snapshotItem entry (state.staged ino).isSome).map fun item =>
        (state.setFlush ino (some (.uploading item))).setLock ino (some .flush)
  | _, _, _ => none

/-- The upload names an object with the header of the staging file. -/
def upload (mount : EncryptedMount) (state : SizeRepairs) (ino : Ino)
    (hash : Hash) (size : Nat) : Option SizeRepairs :=
  match state.flush ino with
  | some (.uploading item) =>
      if state.staged ino = some (mount.objects hash) then
        some ((state.setFlush ino (some (.uploaded item hash size))).setLock ino
          none)
      else none
  | _ => none

def flushFails (state : SizeRepairs) (ino : Ino) : Option SizeRepairs :=
  match state.flush ino with
  | some (.uploading _) => some ((state.setFlush ino none).setLock ino none)
  | some (.uploaded _ _ _) => some (state.setFlush ino none)
  | none => none

/-- The Hub has committed the object, or had it already. -/
def commit (state : SizeRepairs) (ino : Ino) (now : Time) :
    Option SizeRepairs :=
  match state.flush ino with
  | some (.uploaded item hash size) =>
      some { state.setFlush ino none with
        table := state.table.modify ino
          (·.applyCommit hash size item.dirtyGeneration now) }
  | _ => none

def step (mount : EncryptedMount) (state : SizeRepairs) :
    SizeEvent → Option SizeRepairs
  | .repair id => state.repair id
  | .probe id probe reachable => state.probe mount id probe reachable
  | .writeBack id => state.writeBack id
  | .compare id entries prefixes => state.compare id entries prefixes
  | .applyDiff id now => state.applyDiff id now
  | .revalidate call answer reachable now =>
      some (state.revalidate mount call answer reachable now)
  | .encryptedEnter id ino call => state.encryptedEnter id ino call
  | .encryptedFill id => state.encryptedFill mount id
  | .encryptedTruncate id => state.encryptedTruncate id
  | .encryptedDone id now => state.encryptedDone id now
  | .encryptedWrite id ino newPlaintext =>
      state.encryptedWrite id ino newPlaintext
  | .writeDone id => state.writeDone id
  | .fail id left => state.fail id left
  | .flushSnapshot ino => state.flushSnapshot ino
  | .upload ino hash size => state.upload mount ino hash size
  | .flushFails ino => state.flushFails ino
  | .commit ino now => state.commit ino now

/-! ## The condition -/

/-- The container has the size, or another task in progress has given it the
size that it has. -/
def Reflects (state : SizeRepairs) (id : Nat) (ino : Ino)
    (container : Option StagedHeader) (size : Nat) : Prop :=
  container = some (some size) ∨ ∃ other task newSize, other ≠ id ∧
    state.tasks other = some task ∧ task.leaves = some (ino, newSize) ∧
    container = some (some newSize)

/-- The task records the size that the container has, and moves the generation
past that of a flush in progress. -/
def RecordFits (state : SizeRepairs) (id : Nat) (ino : Ino)
    (size : InodeEntry → Nat) : Prop :=
  ∀ entry ∈ state.table.get ino,
    (entry.needsSizeProbe = false →
      state.Reflects id ino (state.staged ino) (size entry)) ∧
    ∀ running ∈ state.flush ino, running.item.dirtyGeneration < u64Max

/-- A failed change leaves the container of a dirty file as its size says. -/
def FailFits (state : SizeRepairs) (id : Nat) (ino : Ino)
    (left : Option StagedHeader) : Prop :=
  ∀ entry ∈ state.table.get ino, entry.isDirty = true →
    entry.needsSizeProbe = false → state.Reflects id ino left entry.size

/-- Sizes are written back where the probed object still is, and local changes
of one file do not overtake each other. -/
def Careful (state : SizeRepairs) : SizeEvent → Prop
  | .writeBack id =>
      match state.tasks id with
      | some (.repairing _ probed) => ∀ result ∈ probed,
          result.2.isSome = true → StillProbed state.table result.1
      | _ => True
  | .encryptedFill id =>
      match state.tasks id with
      | some (.ensuring ino call object) =>
          call.forceFresh = true ∧ object = none ∨
            ∀ entry ∈ state.table.get ino,
              entry.isDirty = false ∨ entry.needsSizeProbe = true
      | _ => True
  | .encryptedDone id _ =>
      match state.tasks id with
      | some (.ensured ino (.opening truncate)) =>
          state.RecordFits id ino fun entry =>
            if truncate then 0 else entry.size
      | some (.resized ino newSize) => state.RecordFits id ino fun _ => newSize
      | _ => True
  | .writeDone id =>
      match state.tasks id with
      | some (.writing ino newPlaintext) =>
          state.RecordFits id ino fun _ => newPlaintext
      | _ => True
  | .fail id left =>
      match state.tasks id with
      | some (.ensuring ino _ _) | some (.ensured ino _)
      | some (.resized ino _) | some (.writing ino _) =>
          state.FailFits id ino left
      | _ => True
  | .upload ino _ _ =>
      ∀ running ∈ state.flush ino, ∀ entry ∈ state.table.get ino,
        running.item.dirtyGeneration = entry.dirtyGeneration →
        entry.needsSizeProbe = false →
        ∀ id newPlaintext, state.tasks id ≠ some (.writing ino newPlaintext)
  | _ => True

end SizeRepairs

end HfMount.Vfs
