import HfMount.Basic
import Mathlib.Data.List.Basic

/-!
# The pool of file handles

NFS has no open and no close, so the adapter keeps one file handle for each
inode in a pool of bounded size.  Entries are dropped in the order of their
last use, and those that a read has pinned are kept.
-/

namespace HfMount.Nfs

/-- Pooled handles cap the memory of their prefetch buffers. -/
def handlePoolCapacity : Nat := 64

structure HandleEntry where
  fileHandle : Nat
  /-- The reads that are using this handle. -/
  pinCount : Nat
  deriving DecidableEq

/-- `order` lists the inodes by their last use, the oldest first. -/
structure HandlePool where
  handles : List (Ino × HandleEntry)
  order : List Ino
  deriving DecidableEq

/-- What the caller has to release after an insertion: the entries that made
room, and the old handle of the inode. -/
structure InsertResult where
  evicted : List (Ino × Nat)
  replaced : Option Nat
  deriving DecidableEq

namespace HandlePool

def empty : HandlePool :=
  { handles := []
    order := [] }

def get (pool : HandlePool) (ino : Ino) : Option HandleEntry :=
  pool.handles.lookup ino

/-- The handles without those of an inode. -/
def without (handles : List (Ino × HandleEntry)) (ino : Ino) :
    List (Ino × HandleEntry) :=
  handles.filter fun entry => entry.1 != ino

def put (pool : HandlePool) (ino : Ino) (entry : HandleEntry) : HandlePool :=
  { pool with handles := (ino, entry) :: without pool.handles ino }

/-- Pin an entry; the order stays as it is. -/
def pin (pool : HandlePool) (ino : Ino) : Option (Nat × HandlePool) :=
  (pool.get ino).map fun entry =>
    (entry.fileHandle,
      pool.put ino { entry with pinCount := entry.pinCount + 1 })

def unpin (pool : HandlePool) (ino : Ino) : HandlePool :=
  match pool.get ino with
  | some entry => pool.put ino { entry with pinCount := entry.pinCount - 1 }
  | none => pool

/-- Pin an entry and make it the last one to go. -/
def acquireShared (pool : HandlePool) (ino : Ino) : Option (Nat × HandlePool) :=
  (pool.pin ino).map fun (handle, pinned) =>
    (handle,
      if pinned.order.getLast? = some ino then pinned
      else { pinned with order := pinned.order.erase ino ++ [ino] })

def peek (pool : HandlePool) (ino : Ino) : Option Nat :=
  (pool.get ino).map HandleEntry.fileHandle

def remove (pool : HandlePool) (ino : Ino) : HandlePool :=
  match pool.get ino with
  | some _ =>
      { handles := without pool.handles ino
        order := pool.order.erase ino }
  | none => pool

/-- The loop of `insert` that makes room: it drops the oldest entry until
there is room or that entry is pinned. -/
def evictLru (handles : List (Ino × HandleEntry)) :
    List Ino → List (Ino × Nat) × HandlePool
  | [] => ([], { handles, order := [] })
  | lru :: order =>
      if handles.length < handlePoolCapacity then
        ([], { handles, order := lru :: order })
      else
        match handles.lookup lru with
        | some entry =>
            if entry.pinCount ≠ 0 then ([], { handles, order := lru :: order })
            else
              let rest := evictLru (without handles lru) order
              ((lru, entry.fileHandle) :: rest.1, rest.2)
        | none => evictLru handles order

def insert (pool : HandlePool) (ino : Ino) (fileHandle : Nat) :
    InsertResult × HandlePool :=
  let freed := pool.remove ino
  let made := evictLru freed.handles freed.order
  ({ evicted := made.1
     replaced := pool.peek ino },
    { handles := (ino, { fileHandle, pinCount := 0 }) :: made.2.handles
      order := made.2.order ++ [ino] })

/-- All entries, and the pool without them. -/
def drain (pool : HandlePool) : List (Ino × Nat) × HandlePool :=
  (pool.handles.map fun entry => (entry.1, entry.2.fileHandle), empty)

/-! ## What the pool holds afterwards -/

@[simp] theorem lookup_without_self (handles : List (Ino × HandleEntry))
    (ino : Ino) : (without handles ino).lookup ino = none := by
  induction handles with
  | nil => rfl
  | cons entry handles ih =>
      obtain ⟨key, value⟩ := entry
      by_cases same : key = ino
      · simpa [without, same] using ih
      · have distinct : (ino == key) = false := by simpa using Ne.symm same
        simpa [without, same, List.lookup_cons, distinct] using ih

theorem lookup_without_of_ne {ino other : Ino} (distinct : other ≠ ino)
    (handles : List (Ino × HandleEntry)) :
    (without handles ino).lookup other = handles.lookup other := by
  induction handles with
  | nil => rfl
  | cons entry handles ih =>
      obtain ⟨key, value⟩ := entry
      by_cases same : key = ino
      · have dropped : without ((key, value) :: handles) ino =
            without handles ino := by
          simp [without, same]
        have elsewhere : (other == key) = false := by
          simpa [same] using distinct
        rw [dropped]
        simp only [List.lookup_cons, elsewhere]
        exact ih
      · have kept : without ((key, value) :: handles) ino =
            (key, value) :: without handles ino := by
          simp [without, same]
        rw [kept]
        simp only [List.lookup_cons]
        split
        · rfl
        · exact ih

theorem get_put_self (pool : HandlePool) (ino : Ino) (entry : HandleEntry) :
    (pool.put ino entry).get ino = some entry := by
  simp [put, get]

theorem get_put_of_ne {ino other : Ino} (distinct : other ≠ ino)
    (pool : HandlePool) (entry : HandleEntry) :
    (pool.put ino entry).get other = pool.get other := by
  have elsewhere : (other == ino) = false := by simpa using distinct
  simp only [put, get, List.lookup_cons, elsewhere]
  exact lookup_without_of_ne distinct _

theorem acquireShared_eq_none_iff {pool : HandlePool} {ino : Ino} :
    pool.acquireShared ino = none ↔ pool.peek ino = none := by
  simp [acquireShared, pin, peek]

theorem peek_remove_self (pool : HandlePool) (ino : Ino) :
    (pool.remove ino).peek ino = none := by
  unfold remove
  split <;> rename_i found
  · simp [peek, get]
  · simp [peek, found]

theorem peek_remove_of_ne {ino other : Ino} (distinct : other ≠ ino)
    (pool : HandlePool) : (pool.remove ino).peek other = pool.peek other := by
  unfold remove
  split
  · simp [peek, get, lookup_without_of_ne distinct]
  · rfl

/-- Making room keeps every handle or evicts it. -/
structure MadeRoom (before after : List (Ino × HandleEntry))
    (evicted : List (Ino × Nat)) : Prop where
  kept : ∀ ino entry, after.lookup ino = some entry →
    before.lookup ino = some entry
  evicted : ∀ gone ∈ evicted, (before.lookup gone.1).map
    HandleEntry.fileHandle = some gone.2 ∧ after.lookup gone.1 = none

theorem evictLru_madeRoom (order : List Ino)
    (handles : List (Ino × HandleEntry)) :
    MadeRoom handles (evictLru handles order).2.handles
      (evictLru handles order).1 := by
  have nothing : ∀ handles : List (Ino × HandleEntry),
      MadeRoom handles handles [] :=
    fun handles => ⟨fun _ _ found => found, by simp⟩
  induction order generalizing handles with
  | nil => exact nothing handles
  | cons lru order ih =>
      unfold evictLru
      split
      · exact nothing handles
      split
      · rename_i entry found
        split
        · exact nothing handles
        have rest := ih (without handles lru)
        constructor
        · intro ino kept held
          have before := rest.kept ino kept held
          by_cases same : ino = lru
          · rw [same, lookup_without_self] at before
            cases before
          · rwa [lookup_without_of_ne same] at before
        · intro gone member
          rcases List.mem_cons.mp member with rfl | member
          · refine ⟨by simp [found], ?_⟩
            cases held : (evictLru (without handles lru) order).2.handles.lookup
                lru with
            | none => rfl
            | some kept =>
                have before := rest.kept lru kept held
                rw [lookup_without_self] at before
                cases before
          · obtain ⟨before, absent⟩ := rest.evicted gone member
            refine ⟨?_, absent⟩
            by_cases same : gone.1 = lru
            · rw [same, lookup_without_self] at before
              cases before
            · rwa [lookup_without_of_ne same] at before
      · exact ih handles

theorem peek_insert_self (pool : HandlePool) (ino : Ino) (fileHandle : Nat) :
    (pool.insert ino fileHandle).2.peek ino = some fileHandle := by
  simp [insert, peek, get]

/-- Whatever else is pooled after an insertion was pooled before. -/
theorem peek_insert_of_ne {pool : HandlePool} {ino other : Ino}
    {fileHandle kept : Nat} (distinct : other ≠ ino)
    (held : (pool.insert ino fileHandle).2.peek other = some kept) :
    pool.peek other = some kept := by
  have elsewhere : (other == ino) = false := by simpa using distinct
  obtain ⟨entry, found, rfl⟩ := Option.map_eq_some_iff.mp held
  simp only [insert, get, List.lookup_cons, elsewhere] at found
  have before := (evictLru_madeRoom _ _).kept other entry found
  rw [← peek_remove_of_ne distinct]
  simp [peek, get, before]

/-- The handles that made room were pooled for other inodes, and are not any
more. -/
theorem evicted_insert {pool : HandlePool} {ino : Ino} {fileHandle : Nat}
    {gone : Ino × Nat} (member : gone ∈ (pool.insert ino fileHandle).1.evicted) :
    gone.1 ≠ ino ∧ pool.peek gone.1 = some gone.2 ∧
      (pool.insert ino fileHandle).2.peek gone.1 = none := by
  obtain ⟨before, absent⟩ := (evictLru_madeRoom _ _).evicted gone member
  have pooled : (pool.remove ino).peek gone.1 = some gone.2 := before
  have distinct : gone.1 ≠ ino := by
    intro same
    rw [same, peek_remove_self] at pooled
    cases pooled
  have elsewhere : (gone.1 == ino) = false := by simpa using distinct
  refine ⟨distinct, by rwa [peek_remove_of_ne distinct] at pooled, ?_⟩
  simp only [insert, peek, get, List.lookup_cons, elsewhere]
  simpa using absent

theorem replaced_insert (pool : HandlePool) (ino : Ino) (fileHandle : Nat) :
    (pool.insert ino fileHandle).1.replaced = pool.peek ino := rfl

end HandlePool

end HfMount.Nfs
