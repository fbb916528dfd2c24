import HfMount.Encryption.Content
import HfMount.Flush.StagedFile
import HfMount.Lib.Budget
import HfMount.Vfs.References
import HfMount.Vfs.Rename
import HfMount.Vfs.UnlinkCalls

/-!
# The budget of the staging directory

The staging directory counts the bytes of its files in `bytesUsed`, and the
garbage collection goes by that counter.  Whoever changes a staging file tells
the counter an old and a new size: what `fileSize` measured, the size in the
inode, or the size of a container.  The state below has the staging files of
all inodes by their lengths, with the calls that change them; a step is one
stretch of the source between two points where another task can run, and a
write changes its file before it takes the lock of the table.
-/

namespace HfMount.Vfs

open SlashPath Inode Flush Encryption Transition

/-- A handle keeps the file that it opened when another one takes its place
under the staging path. -/
structure StagingFile where
  id : Nat
  length : Nat
  deriving DecidableEq

structure StagingDir where
  files : AList fun _ : Ino => StagingFile
  bytesUsed : Nat
  maxBytes : Nat
  nextFile : Nat

/-- What an operation leaves under the staging path: a file of this length, in
a new file or in the one that was there, or no file. -/
abbrev Leftover := Option (Bool × Nat)

/-- How the work of an operation on its staging file ends; a download leaves
the length that it has written. -/
inductive StagingOutcome where
  | placed (replaced : Bool) (length : Nat)
  | failed (left : Leftover)
  deriving DecidableEq

namespace StagingDir

def new (maxBytes : Nat) : StagingDir :=
  { files := ∅
    bytesUsed := 0
    maxBytes
    nextFile := 0 }

/-- Zero when there is no file. -/
def fileSize (dir : StagingDir) (ino : Ino) : Nat :=
  (dir.files.lookup ino).elim 0 (·.length)

def localExists (dir : StagingDir) (ino : Ino) : Bool :=
  (dir.files.lookup ino).isSome

/-- Saturates at zero and at `u64::MAX`. -/
def resizeBytes (dir : StagingDir) (old new : Nat) : StagingDir :=
  { dir with bytesUsed := Budget.resize u64Max dir.bytesUsed old new }

def isOverLimit (dir : StagingDir) : Bool :=
  decide (0 < dir.maxBytes) && decide (dir.maxBytes < dir.bytesUsed)

/-- The removal may fail. -/
def tryRemove (dir : StagingDir) (ino : Ino) (works : Bool) : StagingDir :=
  if dir.localExists ino && works then
    { dir with files := dir.files.erase ino }.resizeBytes (dir.fileSize ino) 0
  else dir

def place (dir : StagingDir) (ino : Ino) (replaced : Bool) (length : Nat) :
    StagingDir :=
  match dir.files.lookup ino, replaced with
  | some file, false =>
      { dir with files := dir.files.insert ino { file with length } }
  | _, _ =>
      { dir with
        files := dir.files.insert ino ⟨dir.nextFile, length⟩
        nextFile := dir.nextFile + 1 }

def leave (dir : StagingDir) (ino : Ino) : Leftover → StagingDir
  | some (replaced, length) => dir.place ino replaced length
  | none => { dir with files := dir.files.erase ino }

/-- The sum of the lengths of the staging files. -/
def totalLength (dir : StagingDir) : Nat :=
  Budget.total (fun _ file => file.length) dir.files

def Balanced (dir : StagingDir) : Prop := dir.bytesUsed = dir.totalLength

instance (dir : StagingDir) : Decidable dir.Balanced :=
  inferInstanceAs (Decidable (_ = _))

end StagingDir

inductive StagingMode where
  | plaintext
  | encrypted
  /-- Local files live in the backing tree, not in the staging directory. -/
  | overlay
  deriving DecidableEq

/-- A writable handle; one of the backing tree has no staging file. -/
structure WriteHandle where
  ino : Ino
  file : Option Nat
  deriving DecidableEq

/-- What `ensureEncryptedStaging` prepares a container for. -/
inductive EncryptedCall where
  | opening (truncate : Bool)
  | truncating (newSize : Nat)
  deriving DecidableEq

def EncryptedCall.forceFresh : EncryptedCall → Bool
  | .opening truncate => truncate
  | .truncating _ => false

/-- What the holder of the lock of an inode is about to do; `old` is the size
that it has measured, and `download` says that there is an object to fetch. -/
inductive StagingTask where
  | preparing (hash : Hash) (size : Nat) (truncate : Bool) (old : Nat)
  | prepared (truncate : Bool)
  | truncating (newSize old : Nat)
  | ensuring (call : EncryptedCall) (download : Bool) (old : Nat)
  | ensured (call : EncryptedCall)
  deriving DecidableEq

/-- A write that has changed its file and not yet taken the lock of the
table. -/
inductive LocalWrite where
  | plain (ino : Ino) (newEnd : Nat)
  | encrypted (ino : Ino) (oldPlaintext newPlaintext : Nat)
  deriving DecidableEq

namespace LocalWrite

def ino : LocalWrite → Ino
  | .plain ino _ | .encrypted ino _ _ => ino

def isEncrypted : LocalWrite → Bool
  | .plain _ _ => false
  | .encrypted _ _ _ => true

def containerBytes (plaintext : Nat) : Nat :=
  (Content.ciphertextSize plaintext).getD 0

/-- The sizes that the write tells the counter when the inode has this one. -/
def chargeAt (size : Nat) : LocalWrite → Option (Nat × Nat)
  | .plain _ newEnd => if size < newEnd then some (size, newEnd) else none
  | .encrypted _ oldPlaintext newPlaintext =>
      if newPlaintext = size then none
      else some (containerBytes oldPlaintext, containerBytes newPlaintext)

def charge (table : InodeTable) (write : LocalWrite) : Option (Nat × Nat) :=
  (table.get write.ino).bind fun entry => write.chargeAt entry.size

/-- The sizes of its containers do not overflow. -/
def sizesFit : LocalWrite → Bool
  | .plain _ _ => true
  | .encrypted _ oldPlaintext newPlaintext =>
      (Content.ciphertextSize oldPlaintext).isSome &&
        (Content.ciphertextSize newPlaintext).isSome

def record (write : LocalWrite) (entry : InodeEntry) : InodeEntry :=
  match write with
  | .plain _ newEnd =>
      { entry with size := max entry.size newEnd }.setDirty
  | .encrypted _ _ newPlaintext =>
      { entry with size := newPlaintext }.setDirty

end LocalWrite

structure StagingRun where
  mode : StagingMode
  table : InodeTable
  dir : StagingDir
  handles : List WriteHandle
  held : Ino → Option StagingTask
  /-- Inodes whose staging file `dropLocked` is to remove. -/
  dropping : List Ino
  /-- Inodes whose staging file is to be removed without the lock. -/
  evicted : List Ino
  /-- Inodes that a pass of the garbage collection has chosen. -/
  collecting : List Ino
  /-- Encrypted writes that have read the size of the inode. -/
  reads : List (Ino × Nat)
  writes : List LocalWrite

inductive StagingEvent where
  | create (parent : Ino) (name : Name) (mode uid gid : Nat) (now : Time)
      (outcome : StagingOutcome)
  /-- An open has read the hash and the size, and has the lock. -/
  | openEnter (ino : Ino) (hash : Hash) (size : Nat) (truncate : Bool)
  | openFill (ino : Ino) (outcome : StagingOutcome)
  | openDone (ino : Ino) (now : Time)
  | setattrEnter (ino : Ino) (newSize : Nat)
  | setattrApply (ino : Ino) (outcome : StagingOutcome) (now : Time)
  | encryptedEnter (ino : Ino) (call : EncryptedCall)
  | encryptedFill (ino : Ino) (outcome : StagingOutcome)
  | encryptedDone (ino : Ino) (outcome : StagingOutcome) (now : Time)
  | pwrite (handle : WriteHandle) (offset written : Nat)
  | encryptedRead (ino : Ino)
  | encryptedWrite (ino : Ino) (oldPlaintext newPlaintext length : Nat)
  | encryptedWriteFails (ino : Ino) (oldPlaintext length : Nat)
  | writeDone (write : LocalWrite)
  | unlink (info : Examined) (now : Time)
  | rename (info : RenameInfo) (request : RenameRequest) (now : Time)
  | dropLocked (ino : Ino) (works : Bool)
  | release (handle : WriteHandle)
  | releaseReader (ino : Ino)
  | forget (ino : Ino) (count : Nat)
  | sweep (inos : List Ino)
  | dropStaging (ino : Ino) (works : Bool)
  | gcChoose (ino : Ino)
  | gcOne (ino : Ino) (works : Bool)
  /-- Lookups, listings, polls and flushes change the table alone. -/
  | other (table : InodeTable)

namespace StagingRun

def setTask (state : StagingRun) (ino : Ino) (task : Option StagingTask) :
    StagingRun :=
  { state with held := Function.update state.held ino task }

/-- The length of a fresh staging file. -/
def freshLength (state : StagingRun) : Nat :=
  if state.mode = .encrypted then Content.containerHeaderLen else 0

/-- The handle on the file under the staging path. -/
def stagedHandle (dir : StagingDir) (ino : Ino) : WriteHandle :=
  { ino
    file := (dir.files.lookup ino).map (·.id) }

/-! ## Create -/

/-- Neither form of `create` tells the counter anything. -/
def createFile (state : StagingRun) (ino : Ino) (table : InodeTable)
    (outcome : StagingOutcome) : StagingRun :=
  match state.mode, outcome with
  | .overlay, .placed _ _ =>
      { state with
        table := table.bumpOpenHandles ino
        handles := { ino, file := none } :: state.handles }
  | .overlay, .failed _ => { state with table := table.remove ino }
  | .plaintext, .placed _ _ =>
      let dir := state.dir.place ino false state.freshLength
      { state with
        table := table.bumpOpenHandles ino
        dir
        handles := stagedHandle dir ino :: state.handles }
  | .plaintext, .failed left =>
      { state with
        table := table.remove ino
        dir := state.dir.leave ino left }
  | .encrypted, .placed _ _ =>
      let dir := state.dir.place ino false state.freshLength
      { state with
        table := (table.modify ino fun entry =>
          { entry with cipherSize := Content.ciphertextSize 0 }).bumpOpenHandles
            ino
        dir
        handles := stagedHandle dir ino :: state.handles }
  | .encrypted, .failed left =>
      { state with
        table
        dir := state.dir.leave ino left }

/-- The inode of a new name, and the table with it. -/
def createInode (state : StagingRun) (parent : Ino) (name : Name)
    (mode uid gid : Nat) (now : Time) : Option (Ino × InodeTable) :=
  match state.table.get parent with
  | none => none
  | some parentEntry =>
      if parentEntry.kind ≠ .directory ||
          (state.table.lookupChild parent name).isSome then none
      else some (References.createEntry state.table parent name
        (childPath parentEntry.fullPath name) mode uid gid now)

def create (state : StagingRun) (parent : Ino) (name : Name)
    (mode uid gid : Nat) (now : Time) (outcome : StagingOutcome) : StagingRun :=
  match state.createInode parent name mode uid gid now with
  | none => state
  | some (ino, table) => state.createFile ino table outcome

/-! ## Opens and truncations -/

/-- `canReuseStaging` without `O_TRUNC`. -/
def canReuse (state : StagingRun) (ino : Ino) : Bool :=
  (state.table.get ino).any (fun entry =>
    entry.isDirty || entry.stagingIsCurrent) && state.dir.localExists ino

/-- An overlay does not touch the staging directory. -/
def openEnter (state : StagingRun) (ino : Ino) (hash : Hash) (size : Nat)
    (truncate : Bool) : Option StagingRun :=
  match state.held ino with
  | some _ => none
  | none =>
      if (state.table.get ino).isNone then some state
      else if state.mode = .overlay || !truncate && state.canReuse ino then
        some (state.setTask ino (some (.prepared truncate)))
      else
        some ({ state with
          table := state.table.modify ino fun entry =>
            { entry with stagingIsCurrent := false } }.setTask ino
              (some (.preparing hash size truncate (state.dir.fileSize ino))))

def openFill (state : StagingRun) (ino : Ino) (outcome : StagingOutcome) :
    Option StagingRun :=
  match state.held ino, outcome with
  | some (.preparing hash size truncate old), .placed replaced length =>
      let filled :=
        if needsDownload hash size truncate then
          (state.dir.place ino replaced length).resizeBytes old size
        else (state.dir.place ino false 0).resizeBytes old 0
      some ({ state with
        dir := filled
        table := state.table.modify ino fun entry =>
          StagedFile.markedEntry entry hash size truncate }.setTask ino
            (some (.prepared truncate)))
  | some (.preparing _ _ _ _), .failed left =>
      some ({ state with dir := state.dir.leave ino left }.setTask ino none)
  | _, _ => none

def openHandle (state : StagingRun) (ino : Ino) : Option WriteHandle :=
  if state.mode = .overlay then some { ino, file := none }
  else if state.dir.localExists ino then some (stagedHandle state.dir ino)
  else none

def openDone (state : StagingRun) (ino : Ino) (now : Time) :
    Option StagingRun :=
  match state.held ino with
  | some (.prepared truncate) =>
      match state.openHandle ino, state.table.get ino with
      | some handle, some _ =>
          some ({ state with
            table := state.table.modify ino fun entry =>
              StagedFile.openedEntry entry truncate now
            handles := handle :: state.handles }.setTask ino none)
      | _, _ => some (state.setTask ino none)
  | _ => none

def setattrEnter (state : StagingRun) (ino : Ino) (newSize : Nat) :
    Option StagingRun :=
  match state.held ino with
  | some _ => none
  | none => some (state.setTask ino
      (some (.truncating newSize (state.dir.fileSize ino))))

/-- The size changes on the disk and in the inode under the lock of the
table, after a download when there was no file. -/
def setattrApply (state : StagingRun) (ino : Ino) (outcome : StagingOutcome)
    (now : Time) : Option StagingRun :=
  match state.held ino, outcome with
  | some (.truncating newSize old), .placed _ _ =>
      let dir :=
        if state.mode = .overlay then state.dir
        else (state.dir.place ino false newSize).resizeBytes old newSize
      some ({ state with
        dir
        table := state.table.modify ino fun entry =>
          StagedFile.truncatedEntry entry newSize now }.setTask ino none)
  | some (.truncating _ _), .failed left =>
      let dir :=
        if state.mode = .overlay then state.dir else state.dir.leave ino left
      some ({ state with dir }.setTask ino none)
  | _, _ => none

/-! ## Encrypted opens and truncations -/

/-- There is an object to start from. -/
def hasObject (entry : InodeEntry) : Bool :=
  !(entry.xetHash.getD []).isEmpty && entry.cipherSize.getD 0 != 0

def encryptedEnter (state : StagingRun) (ino : Ino) (call : EncryptedCall) :
    Option StagingRun :=
  match state.held ino with
  | some _ => none
  | none =>
      match state.table.get ino with
      | none => some state
      | some entry =>
          if !call.forceFresh && state.canReuse ino then
            some (state.setTask ino (some (.ensured call)))
          else some (state.setTask ino (some (.ensuring call
            (!call.forceFresh && hasObject entry) (state.dir.fileSize ino))))

def encryptedFill (state : StagingRun) (ino : Ino) (outcome : StagingOutcome) :
    Option StagingRun :=
  match state.held ino, outcome with
  | some (.ensuring call download old), .placed replaced length =>
      if download then
        some ({ state with
          dir := (state.dir.place ino replaced length).resizeBytes old length
          table := state.table.modify ino fun entry =>
            { entry with stagingIsCurrent := true } }.setTask ino
              (some (.ensured call)))
      else
        some ({ state with
          dir := (state.dir.place ino false state.freshLength).resizeBytes old
            state.freshLength }.setTask ino (some (.ensured call)))
  | some (.ensuring _ _ _), .failed left =>
      some ({ state with dir := state.dir.leave ino left }.setTask ino none)
  | _, _ => none

/-- The entry once an encrypted open or truncation has recorded its size. -/
def encryptedEntry (entry : InodeEntry) (call : EncryptedCall) (now : Time) :
    InodeEntry :=
  match call with
  | .opening truncate =>
      let opened := StagedFile.openedEntry entry truncate now
      { opened with
        cipherSize := if truncate then Content.ciphertextSize 0
          else opened.cipherSize }
  | .truncating newSize =>
      { entry.setDirty with
        size := newSize
        cipherSize := Content.ciphertextSize newSize
        mtime := now
        ctime := now }

/-- An open installs its handle, a truncation changes the container that is
there. -/
def encryptedDone (state : StagingRun) (ino : Ino) (outcome : StagingOutcome)
    (now : Time) : Option StagingRun :=
  match state.held ino, outcome with
  | some (.ensured (.opening truncate)), _ =>
      if state.dir.localExists ino && (state.table.get ino).isSome then
        some ({ state with
          table := state.table.modify ino fun entry =>
            encryptedEntry entry (.opening truncate) now
          handles := stagedHandle state.dir ino :: state.handles }.setTask ino
            none)
      else some (state.setTask ino none)
  | some (.ensured (.truncating newSize)), .placed _ length =>
      if state.dir.localExists ino then
        some ({ state with
          dir := (state.dir.place ino false length).resizeBytes
            (state.dir.fileSize ino) length
          table := state.table.modify ino fun entry =>
            encryptedEntry entry (.truncating newSize) now }.setTask ino none)
      else none
  | some (.ensured (.truncating _)), .failed left =>
      some ({ state with dir := state.dir.leave ino left }.setTask ino none)
  | _, _ => none

/-! ## Writes -/

/-- The file of the handle is the one under the staging path. -/
def isAttached (state : StagingRun) (handle : WriteHandle) : Bool :=
  (state.dir.files.lookup handle.ino).any fun file =>
    handle.file == some file.id

/-- What `pwrite` makes of the length of the staging file. -/
def lengthAfter (state : StagingRun) (handle : WriteHandle)
    (offset written : Nat) : Nat :=
  if state.isAttached handle && decide (0 < written) then
    max (state.dir.fileSize handle.ino) (offset + written)
  else state.dir.fileSize handle.ino

def pwrite (state : StagingRun) (handle : WriteHandle)
    (offset written : Nat) : Option StagingRun :=
  if handle ∈ state.handles ∧ state.mode ≠ .encrypted then
    some { state with
      dir :=
        if state.isAttached handle then
          state.dir.place handle.ino false
            (state.lengthAfter handle offset written)
        else state.dir
      writes := .plain handle.ino (offset + written) :: state.writes }
  else none

/-- An inode that has gone counts as empty. -/
def encryptedRead (state : StagingRun) (ino : Ino) : Option StagingRun :=
  if state.mode = .encrypted ∧ ino ∈ state.handles.map (·.ino) then
    some { state with
      reads := (ino, ((state.table.get ino).map (·.size)).getD 0) ::
        state.reads }
  else none

/-- The container is opened by its path. -/
def encryptedWrite (state : StagingRun) (ino : Ino)
    (oldPlaintext newPlaintext length : Nat) : Option StagingRun :=
  if state.mode = .encrypted ∧ (ino, oldPlaintext) ∈ state.reads ∧
      state.dir.localExists ino then
    some { state with
      dir := state.dir.place ino false length
      reads := state.reads.erase (ino, oldPlaintext)
      writes := .encrypted ino oldPlaintext newPlaintext :: state.writes }
  else none

/-- A write that fails may have changed a container that is there. -/
def encryptedWriteFails (state : StagingRun) (ino : Ino)
    (oldPlaintext length : Nat) : Option StagingRun :=
  if (ino, oldPlaintext) ∈ state.reads then
    some { state with
      dir :=
        if state.dir.localExists ino then state.dir.place ino false length
        else state.dir
      reads := state.reads.erase (ino, oldPlaintext) }
  else none

def announce (dir : StagingDir) : Option (Nat × Nat) → StagingDir
  | some (old, new) => dir.resizeBytes old new
  | none => dir

/-- The write takes the lock of the table; an overflow stops it. -/
def writeDone (state : StagingRun) (write : LocalWrite) :
    Option StagingRun :=
  if write ∈ state.writes then
    if (write.charge state.table).isSome && !write.sizesFit then none
    else some { state with
      dir := announce state.dir (write.charge state.table)
      table := (state.table.modify write.ino write.record).touch write.ino
      writes := state.writes.erase write }
  else none

/-! ## Removals -/

/-- The flag says whether the staging file is to be dropped: the last link has
gone and nothing has the inode open. -/
def unlinkDrops (state : StagingRun) (info : Examined) (now : Time) : Bool :=
  let unlinked := state.table.unlinkOne info.parent info.name now
  unlinked.1.getD false &&
    !(unlinked.2.touchParent info.parent now).hasOpenHandles info.ino

def unlink (state : StagingRun) (info : Examined) (now : Time) : StagingRun :=
  { state with
    table := Unlinks.unlinkLocal state.table info now
    dropping :=
      if state.unlinkDrops info now && decide (state.mode ≠ .overlay) then
        info.ino :: state.dropping
      else state.dropping }

def rename (state : StagingRun) (info : RenameInfo) (request : RenameRequest)
    (now : Time) : StagingRun :=
  match state.table.renameApplyLocal info request now with
  | .ok (replaced, table) =>
      { state with
        table
        dropping := replaced.toList ++ state.dropping }
  | .error errno =>
      if errno = .enoent ∧
          (state.mode = .overlay ∨ info.remoteOps ≠ []) then
        let invalidated := state.table.invalidateChildren request.parent
        { state with
          table := if request.parent = request.newparent then invalidated
            else invalidated.invalidateChildren request.newparent }
      else state

def dropLocked (state : StagingRun) (ino : Ino) (works : Bool) :
    Option StagingRun :=
  if ino ∈ state.dropping ∧ state.held ino = none then
    some { state with
      dir := state.dir.tryRemove ino works
      dropping := state.dropping.erase ino }
  else none

/-- The reference of a handle goes; the last one may take the inode along. -/
def lastRelease (state : StagingRun) (ino : Ino) : StagingRun :=
  let dropped := state.table.dropOpenHandles ino
  if dropped.hasOpenHandles ino then { state with table := dropped }
  else
    let reaped := dropped.reapOnLastRelease (decide (state.mode = .overlay)) ino
    { state with
      table := reaped.table
      evicted :=
        if reaped.removed && reaped.overlayPath.isNone then
          ino :: state.evicted
        else state.evicted }

def release (state : StagingRun) (handle : WriteHandle) :
    Option StagingRun :=
  if handle ∈ state.handles then
    some ({ state with handles := state.handles.erase handle }.lastRelease
      handle.ino)
  else none

def forget (state : StagingRun) (ino : Ino) (count : Nat) : StagingRun :=
  let dropped := state.table.dropNlookup ino count
  if !dropped.1 then { state with table := dropped.2 }
  else if dropped.2.hasOpenHandles ino then
    { state with table := dropped.2.markEvictPending ino }
  else
    let evicted := dropped.2.evictIfSafe ino
    { state with
      table := evicted.2
      evicted := if evicted.1 then ino :: state.evicted else state.evicted }

def sweep (state : StagingRun) (inos : List Ino) : StagingRun :=
  let evicted := state.table.evictBatchIfSafe inos
  { state with
    table := evicted.2
    evicted := evicted.1 ++ state.evicted }

def dropStaging (state : StagingRun) (ino : Ino) (works : Bool) :
    Option StagingRun :=
  if ino ∈ state.evicted then
    some { state with
      dir := state.dir.tryRemove ino works
      evicted := state.evicted.erase ino }
  else none

/-- `gcOne` before it waits for the lock. -/
def gcChoose (state : StagingRun) (ino : Ino) : StagingRun :=
  if state.dir.isOverLimit then
    { state with collecting := ino :: state.collecting }
  else state

def gcOne (state : StagingRun) (ino : Ino) (works : Bool) :
    Option StagingRun :=
  if ino ∈ state.collecting ∧ state.held ino = none then
    some { state with
      dir :=
        if (state.table.get ino).any (!·.isDirty) then
          state.dir.tryRemove ino works
        else state.dir
      collecting := state.collecting.erase ino }
  else none

def step (state : StagingRun) : StagingEvent → Option StagingRun
  | .create parent name mode uid gid now outcome =>
      some (state.create parent name mode uid gid now outcome)
  | .openEnter ino hash size truncate => state.openEnter ino hash size truncate
  | .openFill ino outcome => state.openFill ino outcome
  | .openDone ino now => state.openDone ino now
  | .setattrEnter ino newSize => state.setattrEnter ino newSize
  | .setattrApply ino outcome now => state.setattrApply ino outcome now
  | .encryptedEnter ino call => state.encryptedEnter ino call
  | .encryptedFill ino outcome => state.encryptedFill ino outcome
  | .encryptedDone ino outcome now => state.encryptedDone ino outcome now
  | .pwrite handle offset written => state.pwrite handle offset written
  | .encryptedRead ino => state.encryptedRead ino
  | .encryptedWrite ino oldPlaintext newPlaintext length =>
      state.encryptedWrite ino oldPlaintext newPlaintext length
  | .encryptedWriteFails ino oldPlaintext length =>
      state.encryptedWriteFails ino oldPlaintext length
  | .writeDone write => state.writeDone write
  | .unlink info now => some (state.unlink info now)
  | .rename info request now => some (state.rename info request now)
  | .dropLocked ino works => state.dropLocked ino works
  | .release handle => state.release handle
  | .releaseReader ino => some (state.lastRelease ino)
  | .forget ino count => some (state.forget ino count)
  | .sweep inos => some (state.sweep inos)
  | .dropStaging ino works => state.dropStaging ino works
  | .gcChoose ino => some (state.gcChoose ino)
  | .gcOne ino works => state.gcOne ino works
  | .other table => some { state with table }

end StagingRun

end HfMount.Vfs
