import HfMount.Lib.Transition
import Mathlib.Data.List.Nodup

/-!
# Locks from a table

A user takes a reference to the mutex that a table has for its key, and keeps
it as long as it waits for the mutex or holds it.  If a table forgets only
mutexes without references, its users are serialized by their keys.
-/

namespace HfMount

open Transition

structure LockUse (κ : Type) where
  user : Nat
  key : κ
  lock : Nat
  deriving DecidableEq

structure LockTable (κ : Type) where
  locks : List (κ × Nat)
  uses : List (LockUse κ)
  nextLock : Nat
  deriving DecidableEq

inductive LockEvent (κ : Type) where
  | get (user : Nat) (key : κ)
  | drop (user : Nat)
  | forget (key : κ)

namespace LockTable

variable {κ : Type}

def new : LockTable κ := ⟨[], [], 0⟩

/-- Somebody besides the table has a reference. -/
def isUsed (table : LockTable κ) (lock : Nat) : Bool :=
  table.uses.any (·.lock = lock)

def enter (table : LockTable κ) (user : Nat) (key : κ) (lock : Nat) :
    LockTable κ :=
  { table with uses := { user, key, lock } :: table.uses }

def insertNew (table : LockTable κ) (key : κ) : LockTable κ :=
  { table with
    locks := (key, table.nextLock) :: table.locks
    nextLock := table.nextLock + 1 }

/-- What a table does is to give out mutexes and to forget them. -/
def step (get : LockTable κ → Nat → κ → LockTable κ)
    (forget : LockTable κ → κ → LockTable κ) (table : LockTable κ) :
    LockEvent κ → Option (LockTable κ)
  | .get user key =>
      if table.uses.any (·.user = user) then none
      else some (get table user key)
  | .drop user =>
      some { table with uses := table.uses.filter (·.user ≠ user) }
  | .forget key => some (forget table key)

/-- Every user has the mutex that its key has in the table. -/
structure Agrees (table : LockTable κ) : Prop where
  keys : (table.locks.map (·.1)).Nodup
  values : (table.locks.map (·.2)).Nodup
  fresh : ∀ entry ∈ table.locks, entry.2 < table.nextLock
  used : ∀ use ∈ table.uses, (use.key, use.lock) ∈ table.locks

/-- The users of one key, and no others, have the same mutex. -/
def Serialized (table : LockTable κ) : Prop :=
  ∀ left ∈ table.uses, ∀ right ∈ table.uses,
    left.lock = right.lock ↔ left.key = right.key

section

variable {table next : LockTable κ}

theorem Agrees.enter (agrees : table.Agrees) {key : κ} {lock : Nat}
    (found : (key, lock) ∈ table.locks) (user : Nat) :
    (table.enter user key lock).Agrees := by
  refine ⟨agrees.keys, agrees.values, agrees.fresh, ?_⟩
  intro use member
  rcases List.mem_cons.mp member with rfl | old
  · exact found
  · exact agrees.used use old

theorem Agrees.insertNew (agrees : table.Agrees) {key : κ}
    (absent : key ∉ table.locks.map (·.1)) :
    (table.insertNew key).Agrees := by
  refine ⟨List.nodup_cons.mpr ⟨absent, agrees.keys⟩, ?_, ?_, ?_⟩
  · refine List.nodup_cons.mpr ⟨fun member => ?_, agrees.values⟩
    obtain ⟨entry, inLocks, same⟩ := List.mem_map.mp member
    exact Nat.ne_of_lt (agrees.fresh entry inLocks) same
  · intro entry member
    rcases List.mem_cons.mp member with rfl | old
    · exact Nat.lt_succ_self _
    · exact Nat.lt_succ_of_lt (agrees.fresh entry old)
  · exact fun use member => List.mem_cons_of_mem _ (agrees.used use member)

/-- Entries without users may go. -/
theorem Agrees.filter (agrees : table.Agrees) {stays : κ × Nat → Bool}
    (needed : ∀ entry ∈ table.locks, table.isUsed entry.2 = true →
      stays entry = true) :
    ({ table with locks := table.locks.filter stays } : LockTable κ).Agrees := by
  have fewer : (table.locks.filter stays).Sublist table.locks :=
    List.filter_sublist
  refine ⟨agrees.keys.sublist (fewer.map _), agrees.values.sublist (fewer.map _),
    fun entry member => agrees.fresh entry (fewer.subset member), ?_⟩
  intro use member
  have listed := agrees.used use member
  refine List.mem_filter.mpr ⟨listed, needed _ listed ?_⟩
  exact List.any_eq_true.mpr ⟨use, member, decide_eq_true rfl⟩

theorem Agrees.serialized (agrees : table.Agrees) : table.Serialized := by
  intro left inLeft right inRight
  have foundLeft := agrees.used left inLeft
  have foundRight := agrees.used right inRight
  constructor
  · intro same
    have entry := List.inj_on_of_nodup_map agrees.values foundLeft foundRight
      same
    exact (Prod.mk.inj entry).1
  · intro same
    have entry := List.inj_on_of_nodup_map agrees.keys foundLeft foundRight same
    exact (Prod.mk.inj entry).2

variable {get : LockTable κ → Nat → κ → LockTable κ}
  {forget : LockTable κ → κ → LockTable κ}

theorem serialized_of_run
    (gets : ∀ {table} user key, table.Agrees → (get table user key).Agrees)
    (forgets : ∀ {table} key, table.Agrees → (forget table key).Agrees)
    {events : List (LockEvent κ)} {final : LockTable κ}
    (run : exec (LockTable.step get forget) new events = some final) :
    final.Serialized := by
  have empty : (new : LockTable κ).Agrees :=
    ⟨List.nodup_nil, List.nodup_nil, nofun, nofun⟩
  refine (exec_invariant_of_step ?_ empty run).serialized
  intro table event next agrees stepped
  cases event with
  | get user key =>
      simp only [LockTable.step] at stepped
      split at stepped
      · cases stepped
      · obtain rfl := Option.some.inj stepped
        exact gets user key agrees
  | drop user =>
      obtain rfl := Option.some.inj stepped
      refine ⟨agrees.keys, agrees.values, agrees.fresh, ?_⟩
      exact fun use member => agrees.used use (List.mem_of_mem_filter member)
  | forget key =>
      obtain rfl := Option.some.inj stepped
      exact forgets key agrees

end

end LockTable

end HfMount
