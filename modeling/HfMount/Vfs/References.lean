import HfMount.Inode.LastRelease

/-!
# References and evictions

A reply that hands an inode number to the kernel counts one lookup, a `forget`
takes lookups back, and opens and releases count handles.  An inode without
either may be evicted by a `forget`, by the last close, or by the sweep that
keeps the table under its limit.  Every call is taken apart where it gives up
the lock of the table.
-/

namespace HfMount.Inode

/-- What `evictIfSafe` checks; it leaves the open handles to its caller. -/
def InodeEntry.isUnreferenced (entry : InodeEntry) : Bool :=
  entry.kind = .file && entry.eviction.nlookup == 0 && !entry.isDirty &&
    entry.pendingDeletes.isEmpty && decide (0 < entry.nlink)

/-- What `lruCandidates` picks. -/
def InodeEntry.isLruCandidate (entry : InodeEntry) : Bool :=
  entry.kind = .file && decide (0 < entry.nlink) && !entry.isDirty &&
    entry.pendingDeletes.isEmpty && entry.eviction.openHandles == 0

namespace InodeTable

/-- Up to `max` files that were touched longest ago. -/
def lruCandidates (table : InodeTable) (max : Nat) : List Ino :=
  let picks := (table.values.filter (·.isLruCandidate)).mergeSort
    fun left right => left.eviction.lastTouched < right.eviction.lastTouched ||
      left.eviction.lastTouched == right.eviction.lastTouched &&
        decide (left.inode ≤ right.inode)
  (picks.take max).map (·.inode)

/-- The counter value becomes the recency of the inode. -/
def touch (table : InodeTable) (ino : Ino) : InodeTable :=
  match table.get ino with
  | none => table
  | some _ =>
      { table.modifyEviction ino fun state =>
          { state with lastTouched := table.touchCounter } with
        touchCounter := table.touchCounter + 1 }

end InodeTable

end HfMount.Inode

namespace HfMount.Vfs

open SlashPath Inode

/-- A call that has given up the lock of the table and is to go on. -/
inductive RefCall where
  /-- A lookup or a create has its attributes; the reply is to come. -/
  | replying (ino : Ino)
  | creating (ino : Ino)
  | opening (ino : Ino)
  /-- The kernel has sent a `forget`. -/
  | forgetting (ino : Ino) (count : Nat)
  /-- The count of the lookups has come to zero. -/
  | forgotten (ino : Ino)
  /-- The `forget` has seen an open handle. -/
  | deferring (ino : Ino)
  /-- The `forget` has seen no open handle. -/
  | evicting (ino : Ino)
  | releasing (ino : Ino)
  /-- The handle of the release is off the count. -/
  | dropped (ino : Ino)
  /-- The release has seen no open handle. -/
  | reaping (ino : Ino)
  | sweeping (candidates toEvict : List Ino)
  deriving DecidableEq

structure References where
  table : InodeTable
  /-- The inodes of the open files, one for each handle. -/
  handles : List Ino
  /-- What the kernel has been answered and has not sent a `forget` for. -/
  known : Ino → Nat
  calls : List RefCall

inductive RefEvent where
  /-- A listing, a HEAD or a `mkdir` brings an entry in. -/
  | insert (parent : Ino) (name : Name) (fullPath : Path) (kind : InodeKind)
      (size : Nat) (mtime : Time) (xetHash : Option Hash) (mode uid gid : Nat)
      (now : Time)
  /-- Any other change of an entry, such as a rename or a poll makes. -/
  | edit (ino : Ino) (entry : InodeEntry)
  | touch (ino : Ino)
  | write (ino : Ino) (newEnd : Nat)
  | commit (ino : Ino) (hash : Hash) (size generation : Nat) (now : Time)
  /-- A lookup finds the inode. -/
  | find (ino : Ino)
  | create (parent : Ino) (name : Name) (mode uid gid : Nat) (now : Time)
  | openFile (ino : Ino)
  /-- An open for writing marks the inode dirty. -/
  | openDirty (ino : Ino) (truncate : Bool) (now : Time)
  | openFails (ino : Ino)
  | forget (ino : Ino) (count : Nat)
  | release (ino : Ino)
  | sweep (softLimit : Nat)
  /-- The kernel takes no more invalidations from a sweep. -/
  | stopSweep (candidates toEvict : List Ino)
  /-- A call takes its next step. -/
  | next (call : RefCall)

namespace References

def evictChunk : Nat := 4096

/-- The call goes on to what it does next. -/
def goOn (state : References) (call : RefCall) : References :=
  { state with calls := call :: state.calls }

/-- A handle is counted and entered into the open files. -/
def install (state : References) (ino : Ino) : References :=
  { state with
    table := state.table.bumpOpenHandles ino
    handles := ino :: state.handles }

/-- The next step of a call, which has been taken off the list. -/
def advance (overlay : Bool) (state : References) : RefCall → References
  | .replying ino =>
      { state with
        table := state.table.bumpNlookup ino
        known := Function.update state.known ino (state.known ino + 1) }
  | .creating ino =>
      let installed := state.install ino
      if (state.table.get ino).isSome then installed.goOn (.replying ino)
      else installed
  | .opening ino => state.install ino
  | .forgetting ino count =>
      let counted := state.table.dropNlookup ino count
      if counted.1 then { state with table := counted.2 }.goOn (.forgotten ino)
      else { state with table := counted.2 }
  | .forgotten ino =>
      if state.table.hasOpenHandles ino then state.goOn (.deferring ino)
      else state.goOn (.evicting ino)
  | .deferring ino =>
      { state with table := state.table.markEvictPending ino }
  | .evicting ino =>
      { state with table := (state.table.evictIfSafe ino).2 }
  | .releasing ino =>
      { state with table := state.table.dropOpenHandles ino }.goOn
        (.dropped ino)
  | .dropped ino =>
      if state.table.hasOpenHandles ino then state
      else state.goOn (.reaping ino)
  | .reaping ino =>
      { state with table := (state.table.reapOnLastRelease overlay ino).table }
  | .sweeping (first :: rest) toEvict =>
      state.goOn (.sweeping rest (toEvict ++ [first]))
  | .sweeping [] toEvict =>
      let evicted := { state with
        table := (state.table.evictBatchIfSafe (toEvict.take evictChunk)).2 }
      if (toEvict.drop evictChunk).isEmpty then evicted
      else evicted.goOn (.sweeping [] (toEvict.drop evictChunk))

/-- The entry that a create inserts. -/
def createEntry (table : InodeTable) (parent : Ino) (name : Name)
    (fullPath : Path) (mode uid gid : Nat) (now : Time) : Ino × InodeTable :=
  let inserted := table.insert parent name fullPath .file 0 now none mode uid
    gid now
  (inserted.1, (inserted.2.modify inserted.1 (·.setDirty)).touchParent parent
    now)

def step (overlay : Bool) (state : References) : RefEvent → Option References
  | .insert parent name fullPath kind size mtime xetHash mode uid gid now =>
      some { state with
        table := (state.table.insert parent name fullPath kind size mtime
          xetHash mode uid gid now).2 }
  | .edit ino edited =>
      match state.table.get ino with
      | none => none
      | some entry =>
          if edited.inode = entry.inode ∧ edited.kind = entry.kind ∧
              edited.nlink = entry.nlink ∧
              edited.eviction = entry.eviction then
            some { state with table := state.table.put ino edited }
          else none
  | .touch ino => some { state with table := state.table.touch ino }
  | .write ino newEnd =>
      if ino ∈ state.handles then
        some { state with
          table := state.table.modify ino fun entry =>
            { entry with size := max entry.size newEnd }.setDirty }
      else none
  | .commit ino hash size generation now =>
      some { state with
        table := state.table.modify ino fun entry =>
          entry.applyCommit hash size generation now }
  | .find ino =>
      if (state.table.get ino).isSome then some (state.goOn (.replying ino))
      else none
  | .create parent name mode uid gid now =>
      match state.table.get parent with
      | none => none
      | some parentEntry =>
          if (parent = rootInode ∨ 0 < state.known parent) ∧
              parentEntry.kind = .directory ∧
              (state.table.lookupChild parent name).isNone then
            let created := createEntry state.table parent name
              (childPath parentEntry.fullPath name) mode uid gid now
            some ({ state with table := created.2 }.goOn
              (.creating created.1))
          else none
  | .openFile ino =>
      if 0 < state.known ino ∧ (state.table.get ino).isSome then
        some (state.goOn (.opening ino))
      else none
  | .openDirty ino truncate now =>
      if .opening ino ∈ state.calls ∧ (state.table.get ino).isSome then
        some { state with
          table := state.table.modify ino fun entry =>
            { entry.setDirty with
              size := if truncate then 0 else entry.size
              mtime := if truncate then now else entry.mtime
              ctime := if truncate then now else entry.ctime } }
      else none
  | .openFails ino =>
      if .opening ino ∈ state.calls then
        some { state with calls := state.calls.erase (.opening ino) }
      else none
  | .forget ino count =>
      if count ≤ state.known ino then
        some ({ state with
          known := Function.update state.known ino
            (state.known ino - count) }.goOn (.forgetting ino count))
      else none
  | .release ino =>
      if ino ∈ state.handles then
        some ({ state with handles := state.handles.erase ino }.goOn
          (.releasing ino))
      else none
  | .sweep softLimit =>
      if softLimit < state.table.values.length then
        some (state.goOn (.sweeping (state.table.lruCandidates
          (state.table.values.length - softLimit)) []))
      else none
  | .stopSweep candidates toEvict =>
      if .sweeping candidates toEvict ∈ state.calls then
        some ({ state with
          calls := state.calls.erase (.sweeping candidates toEvict) }.goOn
            (.sweeping [] toEvict))
      else none
  | .next call =>
      if call ∈ state.calls then
        some ({ state with calls := state.calls.erase call }.advance overlay
          call)
      else none

/-- Before the first call. -/
def mounted : References where
  table := .new
  handles := []
  known := fun _ => 0
  calls := []

/-- No handle is opened between the check of the handles and the eviction that
follows it, none is closed between the check and the flag that follows it, and
no inode is evicted that a reply is about to hand out. -/
def Apart (state : References) : RefEvent → Prop
  | .next (.opening ino) | .next (.creating ino) =>
      .evicting ino ∉ state.calls ∧ .reaping ino ∉ state.calls
  | .next (.releasing ino) => .deferring ino ∉ state.calls
  | .next (.evicting ino) =>
      (state.table.get ino).any (·.isUnreferenced) = true →
        .replying ino ∉ state.calls
  | .next (.reaping ino) =>
      ((state.table.get ino).any fun entry =>
        entry.eviction.evictPending && entry.isUnreferenced) = true →
        .replying ino ∉ state.calls
  | .next (.sweeping [] toEvict) =>
      ∀ entry ∈ state.table.evictedEntries (toEvict.take evictChunk),
        .replying entry.inode ∉ state.calls
  | _ => True

instance (state : References) (event : RefEvent) :
    Decidable (state.Apart event) := by
  unfold Apart
  split <;> infer_instance

/-! ## What evictions must not do -/

/-- A step removes only a file that the kernel has forgotten, that nobody has
open, and that is on the remote as it is. -/
def RemovesUnused (state : References) (next : References) : Prop :=
  ∀ ino entry, state.table.get ino = some entry → next.table.get ino = none →
    entry.eviction.nlookup = 0 ∧ entry.eviction.openHandles = 0 ∧
      ino ∉ state.handles ∧ entry.isDirty = false ∧ entry.pendingDeletes = []

/-- What the kernel knows is in the table. -/
def KeepsKnown (state : References) : Prop :=
  ∀ ino, 0 < state.known ino → (state.table.get ino).isSome = true

/-- An eviction that was deferred waits for a handle, or for a release that is
yet to look. -/
def DefersToRelease (state : References) : Prop :=
  ∀ ino entry, state.table.get ino = some entry →
    entry.eviction.evictPending = true → 0 < entry.eviction.openHandles ∨
      .dropped ino ∈ state.calls ∨ .reaping ino ∈ state.calls

/-- The last close of an inode carries the deferred eviction out. -/
def EvictsDeferred (state : References) (event : RefEvent)
    (next : References) : Prop :=
  ∀ ino entry, event = .next (.reaping ino) →
    state.table.get ino = some entry → entry.eviction.evictPending = true →
    entry.isEvictable = true → next.table.get ino = none

end References

end HfMount.Vfs
