import HfMount.Lib.Transition
import HfMount.Nfs.HandlePool
import Mathlib.Data.List.Perm.Basic

/-!
# Pins in the handle pool

A pooled read pins the entry of its inode, reads with the handle it got, and
unpins the entry of the inode.  Meanwhile the entry may have been replaced or
taken out.
-/

namespace HfMount.Nfs

open Transition

namespace HandlePool

/-- `order` has every pooled inode once. -/
structure Ordered (pool : HandlePool) : Prop where
  perm : pool.order.Perm (pool.handles.map Prod.fst)
  nodup : pool.order.Nodup

/-- The least recently used entry is pinned. -/
def lruPinned (pool : HandlePool) : Bool :=
  match pool.order with
  | [] => false
  | lru :: _ => (pool.get lru).any fun entry => entry.pinCount ≠ 0

/-! ## The order -/

theorem lookup_eq_none_iff {handles : List (Ino × HandleEntry)} {ino : Ino} :
    handles.lookup ino = none ↔ ino ∉ handles.map Prod.fst := by
  rw [List.lookup_eq_none_iff]
  constructor
  · intro apart member
    obtain ⟨entry, listed, rfl⟩ := List.mem_map.mp member
    simpa using apart entry listed
  · intro absent entry listed
    simp only [bne_iff_ne]
    rintro rfl
    exact absent (List.mem_map_of_mem listed)

theorem keys_without {handles : List (Ino × HandleEntry)}
    (nodup : (handles.map Prod.fst).Nodup) (ino : Ino) :
    (without handles ino).map Prod.fst =
      (handles.map Prod.fst).erase ino := by
  rw [nodup.erase_eq_filter, List.filter_map]
  rfl

variable {pool : HandlePool} {ino : Ino}

theorem ordered_empty : empty.Ordered :=
  ⟨List.Perm.refl _, List.nodup_nil⟩

theorem Ordered.keys (ordered : pool.Ordered) :
    (pool.handles.map Prod.fst).Nodup :=
  ordered.perm.nodup_iff.mp ordered.nodup

theorem Ordered.length (ordered : pool.Ordered) :
    pool.order.length = pool.handles.length := by
  rw [ordered.perm.length_eq, List.length_map]

theorem Ordered.mem (ordered : pool.Ordered) {entry : HandleEntry}
    (found : pool.get ino = some entry) : ino ∈ pool.order := by
  rw [ordered.perm.mem_iff]
  by_contra absent
  have none := lookup_eq_none_iff.mpr absent
  rw [get, none] at found
  cases found

theorem Ordered.put (ordered : pool.Ordered) {old : HandleEntry}
    (found : pool.get ino = some old) (entry : HandleEntry) :
    (pool.put ino entry).Ordered := by
  refine ⟨?_, ordered.nodup⟩
  have keys : ((pool.put ino entry).handles.map Prod.fst) =
      ino :: (pool.handles.map Prod.fst).erase ino := by
    rw [HandlePool.put, List.map_cons, keys_without ordered.keys]
  rw [keys]
  refine ordered.perm.trans (List.perm_cons_erase ?_)
  exact ordered.perm.mem_iff.mp (ordered.mem found)

theorem Ordered.touch (ordered : pool.Ordered) (member : ino ∈ pool.order) :
    Ordered { pool with order := pool.order.erase ino ++ [ino] } := by
  have same : (pool.order.erase ino ++ [ino]).Perm pool.order :=
    (List.perm_append_singleton _ _).trans (List.perm_cons_erase member).symm
  exact ⟨same.trans ordered.perm, same.nodup_iff.mpr ordered.nodup⟩

theorem Ordered.remove (ordered : pool.Ordered) (ino : Ino) :
    (pool.remove ino).Ordered := by
  unfold HandlePool.remove
  split
  · refine ⟨?_, ordered.nodup.erase ino⟩
    rw [keys_without ordered.keys]
    exact ordered.perm.erase ino
  · exact ordered

/-! ## Making room -/

theorem ordered_evictLru {order : List Ino}
    {handles : List (Ino × HandleEntry)}
    (ordered : Ordered { handles, order }) :
    (evictLru handles order).2.Ordered := by
  induction order generalizing handles with
  | nil => exact ordered
  | cons lru order ih =>
      unfold evictLru
      split
      · exact ordered
      split <;> rename_i found
      · split
        · exact ordered
        · apply ih
          have removed := ordered.remove lru
          unfold HandlePool.remove at removed
          simpa [get, found] using removed
      · exact absurd (ordered.perm.mem_iff.mp List.mem_cons_self)
          (lookup_eq_none_iff.mp found)

/-- Afterwards there is room, or the oldest entry is pinned. -/
theorem room_evictLru {order : List Ino} {handles : List (Ino × HandleEntry)}
    (ordered : Ordered { handles, order }) :
    (evictLru handles order).2.handles.length < handlePoolCapacity ∨
      (evictLru handles order).2.lruPinned = true := by
  induction order generalizing handles with
  | nil =>
      have length : ([] : List Ino).length = handles.length := ordered.length
      left
      rw [evictLru, ← length]
      decide
  | cons lru order ih =>
      unfold evictLru
      split <;> rename_i room
      · exact Or.inl room
      split <;> rename_i found
      · split <;> rename_i pinned
        · right
          simp [lruPinned, get, found, pinned]
        · apply ih
          have removed := ordered.remove lru
          unfold HandlePool.remove at removed
          simpa [get, found] using removed
      · exact absurd (ordered.perm.mem_iff.mp List.mem_cons_self)
          (lookup_eq_none_iff.mp found)

/-- Only entries without pins make room. -/
theorem unpinned_evictLru (order : List Ino)
    (handles : List (Ino × HandleEntry)) :
    ∀ gone ∈ (evictLru handles order).1, ∃ entry,
      handles.lookup gone.1 = some entry ∧ entry.fileHandle = gone.2 ∧
        entry.pinCount = 0 := by
  induction order generalizing handles with
  | nil =>
      intro gone member
      cases member
  | cons lru order ih =>
      intro gone member
      unfold evictLru at member
      split at member
      · cases member
      split at member <;> rename_i found
      · split at member <;> rename_i pinned
        · cases member
        rcases List.mem_cons.mp member with rfl | member
        · exact ⟨_, found, rfl, not_ne_iff.mp pinned⟩
        · obtain ⟨entry, before, rest⟩ := ih _ gone member
          refine ⟨entry, ?_, rest⟩
          by_cases same : gone.1 = lru
          · rw [same, lookup_without_self] at before
            cases before
          · rwa [lookup_without_of_ne same] at before
      · exact ih handles gone member

/-! ## What the operations do to the entries -/

theorem get_put (pool : HandlePool) (ino other : Ino) (entry : HandleEntry) :
    (pool.put ino entry).get other =
      if other = ino then some entry else pool.get other := by
  split <;> rename_i same
  · rw [same, get_put_self]
  · exact get_put_of_ne same pool entry

theorem get_unpin (pool : HandlePool) (ino other : Ino) :
    (pool.unpin ino).get other =
      if other = ino then
        (pool.get ino).map fun entry =>
          { entry with pinCount := entry.pinCount - 1 }
      else pool.get other := by
  unfold unpin
  split <;> rename_i found
  · rw [get_put, found]
    rfl
  · split <;> rename_i same
    · rw [same, found]
      rfl
    · rfl

theorem get_remove (pool : HandlePool) (ino other : Ino) :
    (pool.remove ino).get other =
      if other = ino then none else pool.get other := by
  unfold remove
  split <;> rename_i found
  · split <;> rename_i same
    · rw [same]
      exact lookup_without_self _ _
    · exact lookup_without_of_ne same _
  · split <;> rename_i same
    · rw [same, found]
    · rfl

theorem order_unpin (pool : HandlePool) (ino : Ino) :
    (pool.unpin ino).order = pool.order := by
  unfold unpin
  split <;> rfl

theorem Ordered.unpin (ordered : pool.Ordered) (ino : Ino) :
    (pool.unpin ino).Ordered := by
  unfold HandlePool.unpin
  split <;> rename_i found
  · exact ordered.put found _
  · exact ordered

theorem Ordered.length_unpin (ordered : pool.Ordered) (ino : Ino) :
    (pool.unpin ino).handles.length = pool.handles.length := by
  rw [← (ordered.unpin ino).length, ← ordered.length, order_unpin]

theorem length_remove_le (pool : HandlePool) (ino : Ino) :
    (pool.remove ino).handles.length ≤ pool.handles.length := by
  unfold remove
  split
  · exact List.length_filter_le _ _
  · exact le_rfl

/-- Acquiring pins the entry and changes nothing else. -/
structure Acquired (pool acquired : HandlePool) (ino : Ino) (handle : Nat)
    (entry : HandleEntry) : Prop where
  found : pool.get ino = some entry
  handle : entry.fileHandle = handle
  get : ∀ other, acquired.get other =
    if other = ino then some { entry with pinCount := entry.pinCount + 1 }
    else pool.get other
  ordered : pool.Ordered → acquired.Ordered
  length : pool.Ordered → acquired.handles.length = pool.handles.length

theorem acquired_of_acquireShared {acquired : HandlePool} {handle : Nat}
    (acquire : pool.acquireShared ino = some (handle, acquired)) :
    ∃ entry, Acquired pool acquired ino handle entry := by
  obtain ⟨⟨pinned, middle⟩, pins, equality⟩ :=
    Option.map_eq_some_iff.mp acquire
  obtain ⟨entry, found, pinning⟩ := Option.map_eq_some_iff.mp pins
  obtain ⟨rfl, rfl⟩ := Prod.mk.inj pinning
  obtain ⟨rfl, rfl⟩ := Prod.mk.inj equality
  have ordered : pool.Ordered → Ordered
      (if (pool.put ino { entry with pinCount := entry.pinCount + 1 }
        ).order.getLast? = some ino then
        pool.put ino { entry with pinCount := entry.pinCount + 1 }
      else
        { pool.put ino { entry with pinCount := entry.pinCount + 1 } with
          order := (pool.put ino
            { entry with pinCount := entry.pinCount + 1 }).order.erase ino ++
              [ino] }) := by
    intro order
    have put := order.put found { entry with pinCount := entry.pinCount + 1 }
    split
    · exact put
    · exact put.touch (order.mem found)
  refine ⟨entry, found, rfl, ?_, ordered, ?_⟩
  · intro other
    rw [← get_put pool ino other]
    split <;> rfl
  · intro order
    have member := order.mem found
    rw [← (ordered order).length, ← order.length]
    split
    · rfl
    · exact (List.perm_append_singleton _ _).trans
        (List.perm_cons_erase member).symm |>.length_eq

theorem get_insert {fileHandle : Nat} {other : Ino} {entry : HandleEntry}
    (held : (pool.insert ino fileHandle).2.get other = some entry) :
    (other = ino ∧ entry = ⟨fileHandle, 0⟩) ∨
      (other ≠ ino ∧ pool.get other = some entry) := by
  by_cases same : other = ino
  · subst same
    simp only [insert, get, List.lookup_cons_self, Option.some.injEq] at held
    exact Or.inl ⟨rfl, held.symm⟩
  · have elsewhere : (other == ino) = false := by simpa using same
    simp only [insert, get, List.lookup_cons, elsewhere] at held
    have before : (pool.remove ino).get other = some entry :=
      (evictLru_madeRoom _ _).kept other entry held
    rw [get_remove, if_neg same] at before
    exact Or.inr ⟨same, before⟩

theorem Ordered.insert (ordered : pool.Ordered) (ino : Ino)
    (fileHandle : Nat) : (pool.insert ino fileHandle).2.Ordered := by
  have made : (evictLru (pool.remove ino).handles
      (pool.remove ino).order).2.Ordered :=
    ordered_evictLru (ordered.remove ino)
  have absent : ino ∉ (evictLru (pool.remove ino).handles
      (pool.remove ino).order).2.order := by
    rw [made.perm.mem_iff, ← lookup_eq_none_iff]
    cases held : (evictLru (pool.remove ino).handles
        (pool.remove ino).order).2.handles.lookup ino with
    | none => rfl
    | some entry =>
        have before : (pool.remove ino).get ino = some entry :=
          (evictLru_madeRoom _ _).kept ino entry held
        rw [get_remove, if_pos rfl] at before
        cases before
  constructor
  · exact (List.perm_append_singleton _ _).trans (made.perm.cons ino)
  · exact (List.perm_append_singleton _ _).nodup_iff.mpr
      (List.nodup_cons.mpr ⟨absent, made.nodup⟩)

/-- An insertion leaves too many entries only behind a pinned one. -/
theorem room_insert (ordered : pool.Ordered) (ino : Ino) (fileHandle : Nat) :
    (pool.insert ino fileHandle).2.handles.length ≤ handlePoolCapacity ∨
      (pool.insert ino fileHandle).2.lruPinned = true := by
  have inserted := ordered.insert ino fileHandle
  have made : (evictLru (pool.remove ino).handles
      (pool.remove ino).order).2.handles.length < handlePoolCapacity ∨
      (evictLru (pool.remove ino).handles
        (pool.remove ino).order).2.lruPinned = true :=
    room_evictLru (ordered.remove ino)
  rcases made with room | pinned
  · exact Or.inl room
  · right
    unfold lruPinned at pinned ⊢
    split at pinned <;> rename_i order
    · cases pinned
    rename_i lru rest
    have front : (pool.insert ino fileHandle).2.order =
        lru :: (rest ++ [ino]) := by
      simp only [HandlePool.insert, order, List.cons_append]
    have distinct : lru ≠ ino := by
      have nodup := inserted.nodup
      rw [front] at nodup
      intro same
      exact (List.nodup_cons.mp nodup).1 (by simp [same])
    have elsewhere : (lru == ino) = false := by simpa using distinct
    rw [front]
    simpa only [HandlePool.insert, get, List.lookup_cons, elsewhere] using pinned

/-- Only entries without pins are evicted. -/
theorem unpinned_insert {fileHandle : Nat} {gone : Ino × Nat}
    (member : gone ∈ (pool.insert ino fileHandle).1.evicted) :
    ∃ entry, pool.get gone.1 = some entry ∧ entry.fileHandle = gone.2 ∧
      entry.pinCount = 0 := by
  obtain ⟨entry, before, handle, unpinned⟩ :=
    unpinned_evictLru _ _ gone member
  have held : (pool.remove ino).get gone.1 = some entry := before
  rw [get_remove] at held
  split at held
  · cases held
  · exact ⟨entry, held, handle, unpinned⟩

end HandlePool

/-! ## Reads, insertions, removals and drains -/

structure PoolState where
  pool : HandlePool
  /-- The reads in flight, each with its inode and its handle. -/
  reads : List (Ino × Nat)
  /-- The handles that were opened; a number is given out once. -/
  opened : List Nat
  /-- What the last step returned for release. -/
  returned : InsertResult
  /-- The least recently used entry was pinned right after the last
  insertion. -/
  lruPinned : Bool

inductive PoolEvent where
  /-- A read finds a pooled handle. -/
  | acquire (ino : Ino)
  /-- `get_or_open_handle` has opened a handle and takes the lock. -/
  | openHandle (ino : Ino) (fileHandle : Nat)
  /-- A read is done and unpins its inode. -/
  | finish (read : Ino × Nat)
  | insert (ino : Ino) (fileHandle : Nat)
  | remove (ino : Ino)
  | drain

namespace PoolState

def start : PoolState :=
  { pool := .empty
    reads := []
    opened := []
    returned := ⟨[], none⟩
    lruPinned := false }

def inserted (state : PoolState) (ino : Ino) (fileHandle : Nat) : PoolState :=
  let result := state.pool.insert ino fileHandle
  { state with
    pool := result.2
    opened := fileHandle :: state.opened
    returned := result.1
    lruPinned := result.2.lruPinned }

def step (state : PoolState) : PoolEvent → Option PoolState
  | .acquire ino =>
      (state.pool.acquireShared ino).map fun (handle, pool) =>
        { state with
          pool
          reads := (ino, handle) :: state.reads
          returned := ⟨[], none⟩ }
  | .openHandle ino fileHandle =>
      if fileHandle ∈ state.opened then none
      else
        match state.pool.acquireShared ino with
        | some (existing, pool) =>
            -- The new handle is released again.
            some
              { state with
                pool
                reads := (ino, existing) :: state.reads
                opened := fileHandle :: state.opened
                returned := ⟨[], none⟩ }
        | none =>
            let after := state.inserted ino fileHandle
            some
              { after with
                pool := ((after.pool.acquireShared ino).map (·.2)).getD
                  after.pool
                reads := (ino, fileHandle) :: state.reads }
  | .finish read =>
      if read ∈ state.reads then
        some
          { state with
            pool := state.pool.unpin read.1
            reads := state.reads.erase read
            returned := ⟨[], none⟩ }
      else none
  | .insert ino fileHandle =>
      if fileHandle ∈ state.opened then none
      else some (state.inserted ino fileHandle)
  | .remove ino =>
      some
        { state with
          pool := state.pool.remove ino
          returned := ⟨[], none⟩ }
  | .drain =>
      some
        { state with
          pool := state.pool.drain.2
          returned := ⟨[], none⟩ }

/-- The number of reads in flight with a handle. -/
def holders (reads : List (Ino × Nat)) (handle : Nat) : Nat :=
  reads.countP fun read => read.2 = handle

/-- A read that ends finds its own handle in the pool, or no pinned one. -/
def Matched (state : PoolState) : PoolEvent → Prop
  | .finish read => ∀ entry ∈ state.pool.get read.1,
      entry.fileHandle = read.2 ∨ entry.pinCount = 0
  | _ => True

instance (state : PoolState) (event : PoolEvent) :
    Decidable (state.Matched event) := by
  cases event <;> unfold Matched <;> infer_instance

/-! ## Counting pins -/

theorem holders_cons (read : Ino × Nat) (reads : List (Ino × Nat))
    (handle : Nat) : holders (read :: reads) handle =
      holders reads handle + if read.2 = handle then 1 else 0 := by
  simp [holders, List.countP_cons]

theorem holders_erase {read : Ino × Nat} {reads : List (Ino × Nat)}
    (member : read ∈ reads) (handle : Nat) : holders reads handle =
      holders (reads.erase read) handle +
        if read.2 = handle then 1 else 0 := by
  rw [← holders_cons]
  exact (List.perm_cons_erase member).countP_eq _

theorem holders_eq_zero {reads : List (Ino × Nat)} {handle : Nat} :
    holders reads handle = 0 ↔ ∀ read ∈ reads, read.2 ≠ handle := by
  simp [holders, List.countP_eq_zero]

/-- The pins of an entry count the reads that hold its handle, and no others;
when `exact` holds they count them all. -/
structure Tracked (exact : Prop) (pool : HandlePool) (reads : List (Ino × Nat))
    (opened : List Nat) : Prop where
  ordered : pool.Ordered
  inFlight : ∀ read ∈ reads, read.2 ∈ opened
  pooled : ∀ {ino entry}, pool.get ino = some entry →
    entry.fileHandle ∈ opened
  /-- Each handle belongs to one inode. -/
  owned : ∀ {ino entry read}, pool.get ino = some entry → read ∈ reads →
    entry.fileHandle = read.2 → ino = read.1
  apart : ∀ {ino other entry otherEntry}, pool.get ino = some entry →
    pool.get other = some otherEntry →
    entry.fileHandle = otherEntry.fileHandle → ino = other
  pins : ∀ {ino entry}, pool.get ino = some entry →
    entry.pinCount ≤ holders reads entry.fileHandle ∧
      (exact → entry.pinCount = holders reads entry.fileHandle)

section

variable {exact : Prop} {pool : HandlePool} {reads : List (Ino × Nat)}
  {opened : List Nat} {ino : Ino} {fileHandle : Nat}

theorem Tracked.opens (tracked : Tracked exact pool reads opened)
    (fileHandle : Nat) : Tracked exact pool reads (fileHandle :: opened) :=
  { tracked with
    inFlight := fun read member =>
      List.mem_cons_of_mem _ (tracked.inFlight read member)
    pooled := fun found => List.mem_cons_of_mem _ (tracked.pooled found) }

theorem Tracked.acquire (tracked : Tracked exact pool reads opened)
    {acquired : HandlePool} {handle : Nat} {entry : HandleEntry}
    (takes : HandlePool.Acquired pool acquired ino handle entry) :
    Tracked exact acquired ((ino, handle) :: reads) opened := by
  -- Entries differ from those before in their pins only.
  have old : ∀ {other otherEntry}, acquired.get other = some otherEntry →
      ∃ before, pool.get other = some before ∧
        before.fileHandle = otherEntry.fileHandle ∧
        otherEntry.pinCount =
          before.pinCount + if other = ino then 1 else 0 := by
    intro other otherEntry found
    rw [takes.get] at found
    split at found <;> rename_i same
    · obtain rfl := Option.some.inj found
      exact ⟨entry, same ▸ takes.found, rfl, by rw [if_pos same]⟩
    · exact ⟨otherEntry, found, rfl, by rw [if_neg same, Nat.add_zero]⟩
  constructor
  · exact takes.ordered tracked.ordered
  · intro read member
    rcases List.mem_cons.mp member with rfl | member
    · rw [← takes.handle]
      exact tracked.pooled takes.found
    · exact tracked.inFlight read member
  · intro other otherEntry found
    obtain ⟨before, foundBefore, same, _⟩ := old found
    rw [← same]
    exact tracked.pooled foundBefore
  · intro other otherEntry read found member equal
    obtain ⟨before, foundBefore, same, _⟩ := old found
    rcases List.mem_cons.mp member with rfl | member
    · exact tracked.apart foundBefore takes.found
        ((same.trans equal).trans takes.handle.symm)
    · exact tracked.owned foundBefore member (same.trans equal)
  · intro left right leftEntry rightEntry foundLeft foundRight equal
    obtain ⟨_, beforeLeft, sameLeft, _⟩ := old foundLeft
    obtain ⟨_, beforeRight, sameRight, _⟩ := old foundRight
    exact tracked.apart beforeLeft beforeRight
      ((sameLeft.trans equal).trans sameRight.symm)
  · intro other otherEntry found
    obtain ⟨before, foundBefore, same, pins⟩ := old found
    have counted := tracked.pins foundBefore
    have own : handle = otherEntry.fileHandle ↔ other = ino := by
      constructor
      · intro equal
        exact tracked.apart foundBefore takes.found
          ((same.trans equal.symm).trans takes.handle.symm)
      · rintro rfl
        obtain rfl := Option.some.inj (foundBefore.symm.trans takes.found)
        exact takes.handle.symm.trans same
    rw [same] at counted
    rw [pins, holders_cons]
    simp only [own]
    constructor
    · exact Nat.add_le_add_right counted.1 _
    · intro isExact
      rw [counted.2 isExact]

theorem Tracked.finish (tracked : Tracked exact pool reads opened)
    {read : Ino × Nat} (member : read ∈ reads)
    (matched : exact → ∀ entry, pool.get read.1 = some entry →
      entry.fileHandle = read.2 ∨ entry.pinCount = 0) :
    Tracked exact (pool.unpin read.1) (reads.erase read) opened := by
  have old : ∀ {other otherEntry},
      (pool.unpin read.1).get other = some otherEntry →
      ∃ before, pool.get other = some before ∧
        before.fileHandle = otherEntry.fileHandle ∧
        otherEntry.pinCount =
          before.pinCount - if other = read.1 then 1 else 0 := by
    intro other otherEntry found
    rw [HandlePool.get_unpin] at found
    split at found <;> rename_i same
    · obtain ⟨before, foundBefore, rfl⟩ := Option.map_eq_some_iff.mp found
      exact ⟨before, same ▸ foundBefore, rfl, by rw [if_pos same]⟩
    · exact ⟨otherEntry, found, rfl, by rw [if_neg same, Nat.sub_zero]⟩
  constructor
  · exact tracked.ordered.unpin read.1
  · intro other listed
    exact tracked.inFlight other (List.mem_of_mem_erase listed)
  · intro other otherEntry found
    obtain ⟨before, foundBefore, same, _⟩ := old found
    rw [← same]
    exact tracked.pooled foundBefore
  · intro other otherEntry later found listed equal
    obtain ⟨before, foundBefore, same, _⟩ := old found
    exact tracked.owned foundBefore (List.mem_of_mem_erase listed)
      (same.trans equal)
  · intro left right leftEntry rightEntry foundLeft foundRight equal
    obtain ⟨_, beforeLeft, sameLeft, _⟩ := old foundLeft
    obtain ⟨_, beforeRight, sameRight, _⟩ := old foundRight
    exact tracked.apart beforeLeft beforeRight
      ((sameLeft.trans equal).trans sameRight.symm)
  · intro other otherEntry found
    obtain ⟨before, foundBefore, same, pins⟩ := old found
    have counted := tracked.pins foundBefore
    rw [same, holders_erase member] at counted
    by_cases own : read.2 = otherEntry.fileHandle
    · -- The read held this handle, so it is the entry of its inode.
      have here : other = read.1 :=
        tracked.owned foundBefore member (same.trans own.symm)
      rw [if_pos own] at counted
      rw [if_pos here] at pins
      rw [pins]
      constructor
      · exact Nat.sub_le_of_le_add counted.1
      · intro isExact
        exact Nat.sub_eq_of_eq_add (counted.2 isExact)
    · rw [if_neg own, Nat.add_zero] at counted
      rw [pins]
      constructor
      · exact (Nat.sub_le _ _).trans counted.1
      · intro isExact
        rw [← counted.2 isExact]
        split <;> rename_i here
        · subst here
          rcases matched isExact before foundBefore with equal | unpinned
          · exact absurd (equal.symm.trans same) own
          · rw [unpinned]
        · rw [Nat.sub_zero]

theorem Tracked.insert (tracked : Tracked exact pool reads opened)
    (fresh : fileHandle ∉ opened) (ino : Ino) :
    Tracked exact (pool.insert ino fileHandle).2 reads
      (fileHandle :: opened) := by
  have unused : ∀ read ∈ reads, read.2 ≠ fileHandle := by
    rintro read member rfl
    exact fresh (tracked.inFlight read member)
  have unpooled : ∀ {other entry}, pool.get other = some entry →
      entry.fileHandle ≠ fileHandle := by
    rintro other entry found rfl
    exact fresh (tracked.pooled found)
  constructor
  · exact tracked.ordered.insert ino fileHandle
  · intro read member
    exact List.mem_cons_of_mem _ (tracked.inFlight read member)
  · intro other entry found
    rcases HandlePool.get_insert found with ⟨_, rfl⟩ | ⟨_, before⟩
    · exact List.mem_cons_self
    · exact List.mem_cons_of_mem _ (tracked.pooled before)
  · intro other entry read found member equal
    rcases HandlePool.get_insert found with ⟨_, rfl⟩ | ⟨_, before⟩
    · exact absurd equal.symm (unused read member)
    · exact tracked.owned before member equal
  · intro left right leftEntry rightEntry foundLeft foundRight equal
    rcases HandlePool.get_insert foundLeft with
      ⟨rfl, rfl⟩ | ⟨_, beforeLeft⟩
    · rcases HandlePool.get_insert foundRight with
        ⟨rfl, _⟩ | ⟨_, beforeRight⟩
      · rfl
      · exact absurd equal.symm (unpooled beforeRight)
    · rcases HandlePool.get_insert foundRight with
        ⟨_, rfl⟩ | ⟨_, beforeRight⟩
      · exact absurd equal (unpooled beforeLeft)
      · exact tracked.apart beforeLeft beforeRight equal
  · intro other entry found
    rcases HandlePool.get_insert found with ⟨_, rfl⟩ | ⟨_, before⟩
    · have none := holders_eq_zero.mpr unused
      rw [none]
      exact ⟨le_rfl, fun _ => rfl⟩
    · exact tracked.pins before

theorem Tracked.remove (tracked : Tracked exact pool reads opened)
    (ino : Ino) : Tracked exact (pool.remove ino) reads opened := by
  have old : ∀ {other entry}, (pool.remove ino).get other = some entry →
      pool.get other = some entry := by
    intro other entry found
    rw [HandlePool.get_remove] at found
    split at found
    · cases found
    · exact found
  exact
    { ordered := tracked.ordered.remove ino
      inFlight := tracked.inFlight
      pooled := fun found => tracked.pooled (old found)
      owned := fun found => tracked.owned (old found)
      apart := fun left right => tracked.apart (old left) (old right)
      pins := fun found => tracked.pins (old found) }

/-- A pool without entries. -/
theorem tracked_empty (inFlight : ∀ read ∈ reads, read.2 ∈ opened) :
    Tracked exact .empty reads opened :=
  { ordered := HandlePool.ordered_empty
    inFlight
    pooled := fun found => by cases found
    owned := fun found => by cases found
    apart := fun found => by cases found
    pins := fun found => by cases found }

/-- No read holds a handle that an insertion evicts. -/
theorem Tracked.evicted (tracked : Tracked exact pool reads opened)
    (isExact : exact) (ino : Ino) (fileHandle : Nat) {gone : Ino × Nat}
    (member : gone ∈ (pool.insert ino fileHandle).1.evicted) :
    gone.2 ∈ opened ∧ ∀ read ∈ reads, read.2 ≠ gone.2 := by
  obtain ⟨entry, found, handle, unpinned⟩ :=
    HandlePool.unpinned_insert member
  rw [← handle]
  refine ⟨tracked.pooled found, ?_⟩
  apply holders_eq_zero.mp
  rw [← (tracked.pins found).2 isExact, unpinned]

end

/-! ## Runs -/

variable {exact : Prop} {state next : PoolState}

/-- The invariant of runs. -/
structure Sound (exact : Prop) (state : PoolState) : Prop where
  tracked : Tracked exact state.pool state.reads state.opened
  room : state.pool.handles.length ≤ handlePoolCapacity ∨
    state.lruPinned = true
  evicted : exact → ∀ gone ∈ state.returned.evicted,
    ∀ read ∈ state.reads, read.2 ≠ gone.2

theorem sound_start : Sound exact start := by
  refine ⟨tracked_empty (by simp [start]), Or.inl (by decide), ?_⟩
  intro _ gone member
  cases member

theorem Sound.inserted (sound : Sound exact state) {fileHandle : Nat}
    (fresh : fileHandle ∉ state.opened) (ino : Ino) :
    Sound exact (state.inserted ino fileHandle) :=
  { tracked := sound.tracked.insert fresh ino
    room := HandlePool.room_insert sound.tracked.ordered ino fileHandle
    evicted := fun isExact _ member =>
      (sound.tracked.evicted isExact ino fileHandle member).2 }

/-- A handle that has just been opened goes into the pool, pinned. -/
theorem Sound.opened (sound : Sound exact state) {fileHandle : Nat}
    (fresh : fileHandle ∉ state.opened) (ino : Ino) :
    Sound exact { state.inserted ino fileHandle with
      pool := (((state.inserted ino fileHandle).pool.acquireShared ino).map
        (·.2)).getD (state.inserted ino fileHandle).pool
      reads := (ino, fileHandle) :: state.reads } := by
  have inserted := sound.inserted fresh ino
  have pooled : (state.inserted ino fileHandle).pool.peek ino =
      some fileHandle := HandlePool.peek_insert_self _ _ _
  cases acquire : (state.inserted ino fileHandle).pool.acquireShared ino with
  | none =>
      rw [HandlePool.acquireShared_eq_none_iff, pooled] at acquire
      cases acquire
  | some result =>
      obtain ⟨handle, acquired⟩ := result
      obtain ⟨entry, takes⟩ := HandlePool.acquired_of_acquireShared acquire
      have same : handle = fileHandle := by
        rw [HandlePool.peek, takes.found, Option.map_some,
          takes.handle] at pooled
        exact Option.some.inj pooled
      rw [same] at takes
      refine ⟨inserted.tracked.acquire takes, ?_, ?_⟩
      · simp only [Option.map_some, Option.getD_some]
        rw [takes.length inserted.tracked.ordered]
        exact inserted.room
      · intro isExact gone member read listed
        have evicted := sound.tracked.evicted isExact ino fileHandle member
        rcases List.mem_cons.mp listed with rfl | listed
        · intro equal
          rw [← equal] at evicted
          exact fresh evicted.1
        · exact evicted.2 read listed

theorem Sound.step {event : PoolEvent} (sound : Sound exact state)
    (matched : exact → state.Matched event)
    (stepped : step state event = some next) : Sound exact next := by
  have quiet : ∀ (reads : List (Ino × Nat)),
      exact → ∀ gone ∈ ([] : List (Ino × Nat)), ∀ read ∈ reads,
        read.2 ≠ gone.2 := by
    intro reads _ gone member
    cases member
  cases event with
  | acquire ino =>
      obtain ⟨⟨handle, acquired⟩, acquire, rfl⟩ :=
        Option.map_eq_some_iff.mp stepped
      obtain ⟨entry, takes⟩ := HandlePool.acquired_of_acquireShared acquire
      refine ⟨sound.tracked.acquire takes, ?_, quiet _⟩
      rw [takes.length sound.tracked.ordered]
      exact sound.room
  | openHandle ino fileHandle =>
      simp only [PoolState.step, Option.ite_none_left_eq_some] at stepped
      obtain ⟨fresh, stepped⟩ := stepped
      split at stepped <;> rename_i acquire
      · obtain rfl := Option.some.inj stepped
        obtain ⟨entry, takes⟩ := HandlePool.acquired_of_acquireShared acquire
        refine ⟨(sound.tracked.acquire takes).opens fileHandle, ?_, quiet _⟩
        dsimp only
        rw [takes.length sound.tracked.ordered]
        exact sound.room
      · obtain rfl := Option.some.inj stepped
        exact sound.opened fresh ino
  | finish read =>
      simp only [PoolState.step, Option.ite_none_right_eq_some,
        Option.some.injEq] at stepped
      obtain ⟨member, rfl⟩ := stepped
      refine ⟨sound.tracked.finish member matched, ?_, quiet _⟩
      dsimp only
      rw [sound.tracked.ordered.length_unpin]
      exact sound.room
  | insert ino fileHandle =>
      simp only [PoolState.step, Option.ite_none_left_eq_some,
        Option.some.injEq] at stepped
      obtain ⟨fresh, rfl⟩ := stepped
      exact sound.inserted fresh ino
  | remove ino =>
      obtain rfl := Option.some.inj stepped
      refine ⟨sound.tracked.remove ino, ?_, quiet _⟩
      exact sound.room.imp_left (HandlePool.length_remove_le _ _).trans
  | drain =>
      obtain rfl := Option.some.inj stepped
      refine ⟨tracked_empty sound.tracked.inFlight, ?_, quiet _⟩
      exact Or.inl (Nat.zero_le _)

/-- In every run the order lists the pooled inodes, no entry has more pins than
reads that hold its handle, and the pool has too many entries only when its
least recently used one was pinned right after the last insertion.  When no
read ends at a pinned handle that has replaced its own, the pins are exact and
no read holds a handle that is evicted. -/
theorem pool_exact {events : List PoolEvent} {final : PoolState}
    (run : exec step start events = some final) :
    final.pool.Ordered ∧
      (final.pool.handles.length ≤ handlePoolCapacity ∨
        final.lruPinned = true) ∧
      (∀ ino entry, final.pool.get ino = some entry →
        entry.pinCount ≤ holders final.reads entry.fileHandle) ∧
      (AllSteps step Matched start events →
        (∀ ino entry, final.pool.get ino = some entry →
          entry.pinCount = holders final.reads entry.fileHandle) ∧
        ∀ gone ∈ final.returned.evicted, ∀ read ∈ final.reads,
          read.2 ≠ gone.2) := by
  have sound : Sound False final :=
    exec_invariant_of_step
      (fun _ _ _ sound stepped => sound.step (fun none => none.elim) stepped)
      sound_start run
  refine ⟨sound.tracked.ordered, sound.room, ?_, ?_⟩
  · intro ino entry found
    exact (sound.tracked.pins found).1
  · intro matched
    have exact' : Sound True final :=
      exec_invariant
        (fun _ _ _ sound matched stepped =>
          sound.step (fun _ => matched) stepped)
        sound_start matched run
    refine ⟨?_, exact'.evicted trivial⟩
    intro ino entry found
    exact (exact'.tracked.pins found).2 trivial

/-- A read, the upgrade of its handle, and another read before it ends. -/
def upgraded : List PoolEvent :=
  [.insert 2 10, .acquire 2, .insert 2 11, .acquire 2]

theorem pool_exact_upgraded :
    let final := (exec step start (upgraded ++ [.finish (2, 11)])).get
      (by decide)
    final.pool.Ordered ∧
      (final.pool.handles.length ≤ handlePoolCapacity ∨
        final.lruPinned = true) ∧
      (∀ ino entry, final.pool.get ino = some entry →
        entry.pinCount ≤ holders final.reads entry.fileHandle) ∧
      (AllSteps step Matched start (upgraded ++ [.finish (2, 11)]) →
        (∀ ino entry, final.pool.get ino = some entry →
          entry.pinCount = holders final.reads entry.fileHandle) ∧
        ∀ gone ∈ final.returned.evicted, ∀ read ∈ final.reads,
          read.2 ≠ gone.2) :=
  pool_exact (Option.some_get _).symm

/-- The first inode is pinned while the pool fills up, and one more is
inserted. -/
def overfull : List PoolEvent :=
  [.insert 1 1, .acquire 1] ++
    (List.range 64).map (fun i => .insert (i + 2) (i + 2)) ++ [.finish (1, 1)]

/-- The first read ends and takes the pin of the second one; the handle of a
read is replaced; and the pool stays too large after the pin is gone. -/
theorem pool_not_exact :
    (¬ ∀ (events : List PoolEvent) (final : PoolState),
      exec step start events = some final → ∀ ino entry,
        final.pool.get ino = some entry →
          entry.pinCount = holders final.reads entry.fileHandle) ∧
    (¬ ∀ (events : List PoolEvent) (final : PoolState),
      exec step start events = some final →
        ∀ gone ∈ final.returned.replaced, ∀ read ∈ final.reads,
          read.2 ≠ gone) ∧
    (¬ ∀ (events : List PoolEvent) (final : PoolState),
      exec step start events = some final →
        final.pool.handles.length ≤ handlePoolCapacity ∨
          final.pool.lruPinned = true) := by
  refine ⟨?_, ?_, ?_⟩
  · intro claim
    have pins := claim (upgraded ++ [.finish (2, 10)]) _
      (Option.some_get (by decide)).symm 2 ⟨11, 0⟩ (by decide)
    revert pins
    decide
  · intro claim
    have unused := claim (upgraded.take 3) _
      (Option.some_get (by decide)).symm 10 (by decide) (2, 10) (by decide)
    exact unused rfl
  · intro claim
    have full := claim overfull _ (Option.some_get (by decide +kernel)).symm
    revert full
    decide +kernel

end PoolState

end HfMount.Nfs
