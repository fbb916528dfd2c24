import HfMount.Flush.CurrentContent
import HfMount.Nfs.HandlePool
import HfMount.Prefetch.Answers

/-!
# The NFS adapter

The adapter serves `READ`, `WRITE`, `CREATE` and `SETATTR` through handles of
the virtual file system that it keeps in its pool.  At most one call is in
progress; between its steps the flush loop goes on, and so do updates from the
remote while a `READ` has opened a handle that is not in the pool yet.
-/

namespace HfMount.Nfs

open SlashPath Inode Flush Prefetch Slice

/-- An entry of `open_files`: a file on disk, or an object that is read by
ranges as the file stood at the open. -/
inductive OpenFile (σ : Type) where
  | localFile (ino : Ino) (file : Nat) (writable : Bool)
  | lazy (ino : Ino) (xetHash : Hash) (reader : Reader σ)

def OpenFile.ino {σ : Type} : OpenFile σ → Ino
  | .localFile ino _ _ => ino
  | .lazy ino _ _ => ino

/-- The call in progress, and the handle that is still private to it. -/
inductive Call where
  | reading (ino : Ino) (handle : Nat)
  | opening (ino : Ino) (offset : Nat) (data : Bytes)
  | opened (ino : Ino) (handle file offset : Nat) (data : Bytes)
  | writing (ino : Ino) (handle : Option Nat)
  | publishing (ino : Ino) (handle : Nat)
  | truncating (ino : Ino)

structure Adapter (σ : Type) where
  directIo : Bool
  files : Ino → Option StagingCache
  openFiles : Nat → Option (OpenFile σ)
  nextHandle : Nat
  pool : HandlePool
  call : Option Call

inductive ReadError where
  | badHandle
  | io

inductive NfsEvent (σ : Type) where
  /-- A step of the flush loop. -/
  | flush (ino : Ino) (event : FileEvent)
  /-- Updates by the poll loop and by the live feed; the invalidator drops the
  pooled handle. -/
  | polled (ino : Ino) (hash etag : Option Hash) (size : Nat) (mtime : Time)
  | followed (ino : Ino) (hash : Option Hash) (size : Option Nat)
      (mtime : Option Time)
  | readShared (ino : Ino) (offset count : Nat) (fetches : List (ReadEvent σ))
  | readOpen (ino : Ino)
  | readInsert (offset count : Nat) (fetches : List (ReadEvent σ))
  | writeStart (ino : Ino) (offset : Nat) (data : Bytes)
  | setattrStart (ino : Ino) (newSize : Nat)
  /-- The next step of the open or truncation in progress. -/
  | callStep (event : CacheEvent)
  | writeOpened
  | writeFails
  | writeRecorded
  | writePublished
  | create (ino parent : Ino) (name : Name) (fullPath : Path)
      (mode uid gid : Nat) (now : Time)

namespace Adapter

variable {σ : Type}

/-! ## The virtual file system -/

def setCache (adapter : Adapter σ) (ino : Ino) (cache : StagingCache) :
    Adapter σ :=
  { adapter with files := Function.update adapter.files ino (some cache) }

/-- One step of a staged file of the mount. -/
def cacheStep (store : ContentStore) (adapter : Adapter σ) (ino : Ino)
    (event : CacheEvent) : Option (Adapter σ) :=
  (adapter.files ino).bind fun cache =>
    (cache.step .plaintext store event).map fun next =>
      adapter.setCache ino next

def setOpen (adapter : Adapter σ) (handle : Nat)
    (opened : Option (OpenFile σ)) : Adapter σ :=
  { adapter with
    openFiles := Function.update adapter.openFiles handle opened }

/-- `alloc_file_handle`, and the entry in `open_files`. -/
def allocate (adapter : Adapter σ) (opened : OpenFile σ) : Adapter σ :=
  { adapter.setOpen adapter.nextHandle (some opened) with
    nextHandle := adapter.nextHandle + 1 }

def release (adapter : Adapter σ) (handle : Nat) : Adapter σ :=
  adapter.setOpen handle none

def hasOpenHandles (adapter : Adapter σ) (ino : Ino) : Bool :=
  (List.range adapter.nextHandle).any fun handle =>
    (adapter.openFiles handle).any fun opened => opened.ino == ino

/-- `open_readonly`: the staging file of a dirty inode, else the object.  A
file that is not stored under a hash is downloaded by other means. -/
def openReadonly (adapter : Adapter σ) (ino : Ino) : Option (OpenFile σ) :=
  (adapter.files ino).bind fun cache =>
    let entry := cache.file.entry
    let hash := entry.xetHash.getD []
    if entry.isDirty then
      cache.file.staging.map fun file => .localFile ino file false
    else if !hash.isEmpty then
      some (.lazy ino hash
        (.start (String.ofList hash) entry.size adapter.directIo))
    else if 0 < entry.size then none
    else some (.lazy ino [] (.start "" 0 adapter.directIo))

/-- `VirtualFs::read`; a lazy read needs the outcomes of its downloads. -/
def readHandle (adapter : Adapter σ) (handle offset count : Nat)
    (fetches : List (ReadEvent σ)) :
    Option (Adapter σ × Except ReadError Bytes) :=
  match adapter.openFiles handle with
  | none => some (adapter, .error .badHandle)
  | some (.localFile ino file _) =>
      (adapter.files ino).map fun cache =>
        (adapter, .ok (slice (cache.file.disk file) offset count))
  | some (.lazy ino hash reader) =>
      (reader.readCall offset count fetches).map fun (next, answer) =>
        (adapter.setOpen handle (some (.lazy ino hash next)),
          match answer with
          | some data => .ok data
          | none => .error .io)

/-! ## Calls -/

/-- The end of a `READ` with a pinned handle.  A handle that was closed
meanwhile is dropped, and a fresh one is read outside of the pool. -/
def finishRead (adapter : Adapter σ) (ino : Ino) (handle offset count : Nat)
    (fetches : List (ReadEvent σ)) : Option (Adapter σ × Option Bytes) :=
  (adapter.readHandle handle offset count fetches).bind fun (read, result) =>
    let unpinned := { read with pool := read.pool.unpin ino }
    match result with
    | .ok data => some (unpinned, some data)
    | .error .io => some (unpinned, none)
    | .error .badHandle =>
        let dropped :=
          if unpinned.pool.peek ino = some handle then
            { unpinned with pool := unpinned.pool.remove ino }
          else unpinned
        match dropped.openReadonly ino with
        | none => some (dropped, none)
        | some opened =>
            ((dropped.allocate opened).readHandle dropped.nextHandle offset
              count fetches).map fun (again, result) =>
              (again.release dropped.nextHandle, result.toOption)

/-- A `READ` that finds a pooled handle. -/
def readShared (adapter : Adapter σ) (ino : Ino) (offset count : Nat)
    (fetches : List (ReadEvent σ)) : Option (Adapter σ × Option Bytes) :=
  match adapter.call with
  | some _ => none
  | none =>
      (adapter.pool.acquireShared ino).bind fun (handle, pool) =>
        { adapter with pool }.finishRead ino handle offset count fetches

/-- A `READ` that has to open a handle: what `get_or_open_handle` does before
it inserts the handle. -/
def readOpen (adapter : Adapter σ) (ino : Ino) : Option (Adapter σ) :=
  match adapter.call, adapter.pool.acquireShared ino with
  | none, none =>
      (adapter.openReadonly ino).map fun opened =>
        { adapter.allocate opened with
          call := some (.reading ino adapter.nextHandle) }
  | _, _ => none

/-- `process_insert_result` and `insert_handle`, where the flush that
`evict_handle` adds has nothing to do for these handles. -/
def insertHandle (adapter : Adapter σ) (ino : Ino) (handle : Nat) :
    Adapter σ :=
  let (result, pool) := adapter.pool.insert ino handle
  let evicted := result.evicted.foldl
    (fun adapter gone => adapter.release gone.2) { adapter with pool }
  match result.replaced with
  | some replaced => evicted.release replaced
  | none => evicted

def readInsert (adapter : Adapter σ) (offset count : Nat)
    (fetches : List (ReadEvent σ)) : Option (Adapter σ × Option Bytes) :=
  match adapter.call with
  | some (.reading ino handle) =>
      let ended := { adapter with call := none }
      match ended.pool.acquireShared ino with
      | some (existing, pool) =>
          ({ ended with pool }.release handle).finishRead ino existing offset
            count fetches
      | none =>
          let inserted := ended.insertHandle ino handle
          (inserted.pool.acquireShared ino).bind fun (_, pool) =>
            { inserted with pool }.finishRead ino handle offset count fetches
  | _ => none

/-- A whole `READ`. -/
def read (adapter : Adapter σ) (ino : Ino) (offset count : Nat)
    (fetches : List (ReadEvent σ)) : Option (Adapter σ × Option Bytes) :=
  match adapter.pool.acquireShared ino with
  | some _ => adapter.readShared ino offset count fetches
  | none => (adapter.readOpen ino).bind fun opened =>
      opened.readInsert offset count fetches

/-- A `WRITE` tries the pooled handle; one that cannot be written is dropped,
and a writable one is opened. -/
def writeStart (store : ContentStore) (adapter : Adapter σ) (ino : Ino)
    (offset : Nat) (data : Bytes) : Option (Adapter σ) :=
  let slowPath (adapter : Adapter σ) : Option (Adapter σ) :=
    (adapter.cacheStep store ino (.file (.openStart 0 false))).map fun opening =>
      { opening with call := some (.opening ino offset data) }
  match adapter.call with
  | some _ => none
  | none =>
      match adapter.pool.peek ino with
      | none => slowPath adapter
      | some handle =>
          match adapter.openFiles handle with
          | some (.localFile _ file true) =>
              (adapter.cacheStep store ino (.file (.pwrite 0 file offset data)))
                |>.map fun written =>
                  { written with call := some (.writing ino none) }
          | _ => slowPath
              ({ adapter with pool := adapter.pool.remove ino }.release handle)

def setattrStart (store : ContentStore) (adapter : Adapter σ) (ino : Ino)
    (newSize : Nat) : Option (Adapter σ) :=
  match adapter.call with
  | some _ => none
  | none =>
      (adapter.cacheStep store ino (.file (.setattr 0 newSize))).map fun next =>
        { next with call := some (.truncating ino) }

/-- The call ends when its operation on the staged file has. -/
def endIfDone (adapter : Adapter σ) (ino : Ino) : Adapter σ :=
  match adapter.files ino with
  | some cache =>
      if (cache.file.op 0).isNone then { adapter with call := none }
      else adapter
  | none => adapter

def callStep (store : ContentStore) (adapter : Adapter σ)
    (event : CacheEvent) : Option (Adapter σ) :=
  match adapter.call with
  | some (.opening ino offset data) =>
      match event with
      | .file (.openEnter 0) | .file (.openFill 0 _) | .file (.openMark 0)
      | .fail 0 _ =>
          (adapter.cacheStep store ino event).map fun next => next.endIfDone ino
      | .file (.openDone 0 _) =>
          (adapter.cacheStep store ino event).bind fun next =>
            (next.files ino).map fun cache =>
              match cache.file.staging with
              | none => { next with call := none }
              | some file =>
                  { next.allocate (.localFile ino file true) with
                    call := some
                      (.opened ino next.nextHandle file offset data) }
      | _ => none
  | some (.truncating ino) =>
      match event with
      | .file (.setattrEnter 0) | .file (.setattrApply 0 _) | .fail 0 none
      | .setattrFails 0 _ =>
          (adapter.cacheStep store ino event).map fun next => next.endIfDone ino
      | _ => none
  | _ => none

/-- The write through the handle that was opened for it. -/
def writeOpened (store : ContentStore) (adapter : Adapter σ) :
    Option (Adapter σ) :=
  match adapter.call with
  | some (.opened ino handle file offset data) =>
      (adapter.cacheStep store ino (.file (.pwrite 0 file offset data))).map
        fun next => { next with call := some (.writing ino (some handle)) }
  | _ => none

def writeFails (adapter : Adapter σ) : Option (Adapter σ) :=
  match adapter.call with
  | some (.opened _ handle _ _ _) =>
      some { adapter.release handle with call := none }
  | _ => none

def writeRecorded (store : ContentStore) (adapter : Adapter σ) :
    Option (Adapter σ) :=
  match adapter.call with
  | some (.writing ino handle) =>
      (adapter.cacheStep store ino (.file (.writeDone 0))).map fun next =>
        { next with call := handle.map (.publishing ino) }
  | _ => none

def writePublished (adapter : Adapter σ) : Option (Adapter σ) :=
  match adapter.call with
  | some (.publishing ino handle) =>
      some { adapter.insertHandle ino handle with call := none }
  | _ => none

/-- A file that `create` has inserted, with its empty staging file. -/
def created (ino parent : Ino) (name : Name) (fullPath : Path)
    (mode uid gid : Nat) (now : Time) : StagingCache where
  file :=
    { entry := (InodeEntry.new ino parent name fullPath .file 0 now none mode
        uid gid now 0).setDirty
      staging := some 0
      disk := fun _ => []
      nextFile := 1
      handles := [0]
      lock := none
      op := fun _ => none
      flush := .idle
      remote := none }
  placed := none

def create (adapter : Adapter σ) (ino parent : Ino) (name : Name)
    (fullPath : Path) (mode uid gid : Nat) (now : Time) : Option (Adapter σ) :=
  match adapter.call, adapter.files ino with
  | none, none =>
      let inserted := adapter.setCache ino
        (created ino parent name fullPath mode uid gid now)
      some ((inserted.allocate (.localFile ino 0 true)).insertHandle ino
        adapter.nextHandle)
  | _, _ => none

/-! ## The loops beside the calls -/

/-- The steps of the flush loop; the garbage collector spares files that are
open. -/
def flushStep (store : ContentStore) (adapter : Adapter σ) (ino : Ino)
    (event : FileEvent) : Option (Adapter σ) :=
  match event with
  | .flushLock | .flushSnapshot | .uploadOk _ | .uploadFail | .flushUnlock
  | .flushUnchanged _ | .hubOk | .hubFail | .applyCommit _ =>
      adapter.cacheStep store ino (.file event)
  | .gcOne =>
      if adapter.hasOpenHandles ino then none
      else adapter.cacheStep store ino (.file event)
  | _ => none

/-- The invalidator that `mount_nfs` sets. -/
def invalidate (adapter : Adapter σ) (ino : Ino) : Adapter σ :=
  match adapter.pool.peek ino with
  | some handle =>
      { adapter with pool := adapter.pool.remove ino }.release handle
  | none => adapter

/-- No call overlaps with an update, except a `READ` that has opened its
handle. -/
def admitsUpdates (adapter : Adapter σ) : Bool :=
  match adapter.call with
  | none | some (.reading _ _) => true
  | _ => false

def updateStep (store : ContentStore) (adapter : Adapter σ) (ino : Ino)
    (event : CacheEvent) : Option (Adapter σ) :=
  if adapter.admitsUpdates then
    (adapter.cacheStep store ino event).map fun next => next.invalidate ino
  else none

def step (store : ContentStore) (adapter : Adapter σ) :
    NfsEvent σ → Option (Adapter σ)
  | .flush ino event => adapter.flushStep store ino event
  | .polled ino hash etag size mtime =>
      adapter.updateStep store ino (.updateRemote hash etag size mtime none)
  | .followed ino hash size mtime =>
      adapter.updateStep store ino (.mergeRemote hash size mtime)
  | .readShared ino offset count fetches =>
      (adapter.readShared ino offset count fetches).map Prod.fst
  | .readOpen ino => adapter.readOpen ino
  | .readInsert offset count fetches =>
      (adapter.readInsert offset count fetches).map Prod.fst
  | .writeStart ino offset data => adapter.writeStart store ino offset data
  | .setattrStart ino newSize => adapter.setattrStart store ino newSize
  | .callStep event => adapter.callStep store event
  | .writeOpened => adapter.writeOpened store
  | .writeFails => adapter.writeFails
  | .writeRecorded => adapter.writeRecorded store
  | .writePublished => adapter.writePublished
  | .create ino parent name fullPath mode uid gid now =>
      adapter.create ino parent name fullPath mode uid gid now

end Adapter

end HfMount.Nfs
