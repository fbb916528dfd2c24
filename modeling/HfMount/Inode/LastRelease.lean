import HfMount.Inode.Eviction

/-!
# References to an inode

The file system counts the lookups that the kernel has been answered and the
handles that are open.  An eviction that has to wait for the last close leaves
a flag; the last close takes out an orphan, or carries that eviction out.
-/

namespace HfMount.Inode

open SlashPath

namespace InodeTable

def modifyEviction (table : InodeTable) (ino : Ino)
    (change : EvictionState → EvictionState) : InodeTable :=
  table.modify ino fun entry => { entry with eviction := change entry.eviction }

def bumpNlookup (table : InodeTable) (ino : Ino) : InodeTable :=
  table.modifyEviction ino fun state =>
    { state with nlookup := state.nlookup + 1 }

/-- The flag says whether the count reached zero. -/
def dropNlookup (table : InodeTable) (ino : Ino) (count : Nat) :
    Bool × InodeTable :=
  ((table.get ino).any fun entry => entry.eviction.nlookup - count == 0,
    table.modifyEviction ino fun state =>
      { state with nlookup := state.nlookup - count })

def markEvictPending (table : InodeTable) (ino : Ino) : InodeTable :=
  table.modifyEviction ino fun state => { state with evictPending := true }

/-- The flag says whether the caller now owns the deferred eviction. -/
def takeEvictPending (table : InodeTable) (ino : Ino) : Bool × InodeTable :=
  ((table.get ino).any (·.eviction.evictPending),
    table.modifyEviction ino fun state => { state with evictPending := false })

/-- What the last close leaves under the lock of the table. -/
structure Reaped where
  table : InodeTable
  removed : Bool
  isClean : Bool
  /-- The backing file of the overlay that goes with the inode. -/
  overlayPath : Option Path

/-- The eviction that was deferred, when there is one. -/
def evictPending (table : InodeTable) (ino : Ino) : Bool × InodeTable :=
  let taken := table.takeEvictPending ino
  if taken.1 then taken.2.evictIfSafe ino else taken

def reapOnLastRelease (table : InodeTable) (overlay : Bool) (ino : Ino) :
    Reaped :=
  let orphan := (table.get ino).any (·.nlink = 0)
  let evicted := (table.removeOrphan ino).evictPending ino
  let removed := orphan || evicted.1
  { table := evicted.2
    removed
    isClean := !removed && (evicted.2.get ino).any (!·.isDirty)
    overlayPath :=
      if overlay && removed then (table.get ino).map (·.fullPath) else none }

/-! ## What the counters leave alone -/

theorem get_modifyEviction (table : InodeTable) (ino other : Ino)
    (change : EvictionState → EvictionState) :
    (table.modifyEviction ino change).get other =
      if other = ino then (table.get ino).map fun entry =>
        { entry with eviction := change entry.eviction }
      else table.get other :=
  table.get_modify ino other _

theorem sameLinks_eviction (entry : InodeEntry) (eviction : EvictionState) :
    entry.SameLinks { entry with eviction } :=
  .of_fields rfl

end InodeTable

end HfMount.Inode
