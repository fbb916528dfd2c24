import HfMount.Basic
import Mathlib.Data.List.AList
import Mathlib.Algebra.BigOperators.Group.List.Basic

/-!
# The items of the file cache

The cache remembers the size and the last access of every file that it has,
and the sum of the sizes.  A file that is published pushes out the files that
were not accessed for the longest time, until the sum is within the capacity.
-/

namespace HfMount.Cache

structure CacheItem where
  size : Nat
  lastAccess : Nat
  deriving DecidableEq

/-- The items by hash; the order of the list is an order in which the map may
be walked through. -/
abbrev Items := AList fun _ : Hash => CacheItem

abbrev Entry := Sigma fun _ : Hash => CacheItem

structure State where
  items : Items
  totalBytes : Nat

def State.empty : State :=
  { items := ∅
    totalBytes := 0 }

/-! ## The initial scan -/

/-- The metadata of a file; `modified` is in seconds, where it is known. -/
structure Metadata where
  isFile : Bool
  len : Nat
  modified : Option Nat
  deriving DecidableEq

/-- An entry of a shard; a name may be no text, and its metadata may be
unreadable. -/
structure DirEntry where
  fileName : Option Hash
  metadata : Option Metadata
  deriving DecidableEq

structure Shard where
  fileName : List Char
  isDir : Bool
  entries : Option (List DirEntry)
  deriving DecidableEq

/-- A file in a shard: the directory and the name. -/
abbrev ItemPath := List Char × Hash

/-- Files are sharded by the first two characters. -/
def itemPath (hash : Hash) : ItemPath :=
  (if 2 ≤ hash.length then hash.take 2 else ['_'], hash)

/-- `TMP_DIR`. -/
def tmpDir : List Char := ['.', 't', 'm', 'p']

/-- The items and the largest tick so far. -/
abbrev Scan := State × Nat

def scanEntry (scan : Scan) (entry : DirEntry) : Scan :=
  match entry.fileName, entry.metadata with
  | some hash, some metadata =>
      if metadata.isFile then
        let tick := metadata.modified.getD 0
        ({ items := scan.1.items.insert hash
             { size := metadata.len
               lastAccess := tick }
           totalBytes := scan.1.totalBytes + metadata.len },
          max scan.2 tick)
      else scan
  | _, _ => scan

def scanShard (scan : Scan) (shard : Shard) : Scan :=
  if shard.fileName = tmpDir then scan
  else if shard.isDir then (shard.entries.getD []).foldl scanEntry scan
  else scan

def scanExisting (root : Option (List Shard)) : Scan :=
  (root.getD []).foldl scanShard (.empty, 0)

/-! ## Eviction -/

/-- The sum of the sizes. -/
def weight (entries : List Entry) : Nat := (entries.map (·.2.size)).sum

/-- The first entries, as many as have to go. -/
def victims (capacity total : Nat) : Nat → List Entry → List Hash
  | _, [] => []
  | freed, entry :: entries =>
      if total - freed ≤ capacity then []
      else entry.1 :: victims capacity total (freed + entry.2.size) entries

def State.removeItem (state : State) (hash : Hash) : State :=
  match state.items.lookup hash with
  | some item =>
      { items := state.items.erase hash
        totalBytes := state.totalBytes - item.size }
  | none => state

def byLastAccess (entries : List Entry) : List Entry :=
  entries.mergeSort fun left right => left.2.lastAccess ≤ right.2.lastAccess

/-- `evict_locked`, where `order` is the order in which the items are walked
through. -/
def State.evictLocked (state : State) (capacity : Nat) (order : List Entry) :
    State × List Hash :=
  if state.totalBytes ≤ capacity then (state, [])
  else
    let gone := victims capacity state.totalBytes 0 (byLastAccess order)
    (gone.foldl State.removeItem state, gone)

/-! ## The operations -/

/-- The cache in memory. -/
structure Memory where
  state : State
  capacity : Nat
  clock : Nat

namespace Memory

def new (root : Option (List Shard)) (capacity : Nat) : Memory :=
  { state := (scanExisting root).1
    capacity
    clock := (scanExisting root).2 + 1 }

/-- The lookup of `try_open`: a hit takes the next tick. -/
def touch (memory : Memory) (hash : Hash) : Option Memory :=
  match memory.state.items.lookup hash with
  | none => none
  | some item =>
      some
        { memory with
          state := { memory.state with
            items := memory.state.items.insert hash
              { item with lastAccess := memory.clock } }
          clock := memory.clock + 1 }

def forgetItem (memory : Memory) (hash : Hash) : Memory :=
  { memory with state := memory.state.removeItem hash }

/-- The items with the new one, before the eviction. -/
def inserted (memory : Memory) (hash : Hash) (size : Nat) : State :=
  let prev := memory.state.items.lookup hash
  { items := memory.state.items.insert hash
      { size
        lastAccess := memory.clock }
    totalBytes :=
      (match prev with
        | some prev => memory.state.totalBytes - prev.size
        | none => memory.state.totalBytes) + size }

/-- The publication of a file; the second component is what has to be removed
from the disk. -/
def publish (memory : Memory) (hash : Hash) (size : Nat)
    (order : List Entry) : Memory × List Hash :=
  let evicted :=
    (memory.inserted hash size).evictLocked memory.capacity order
  ({ memory with
      state := evicted.1
      clock := memory.clock + 1 }, evicted.2)

end Memory

end HfMount.Cache
