import HfMount.Inode.Table
import HfMount.Lib.LockTable

/-!
# The lock tables

The staging coordinator has a lock for each inode until somebody forgets it,
and the table of the directories that are being loaded does not keep the locks
alive.  Neither gives two users of one inode different locks.
-/

namespace HfMount.Vfs

open Inode Transition LockTable

/-- `StagingCoordinator::lock`. -/
def stagingLock (table : LockTable Ino) (user : Nat) (ino : Ino) :
    LockTable Ino :=
  match table.locks.lookup ino with
  | some found => table.enter user ino found
  | none => (table.insertNew ino).enter user ino table.nextLock

def forgetLockIfUnused (table : LockTable Ino) (ino : Ino) : LockTable Ino :=
  match table.locks.lookup ino with
  | some found =>
      if table.isUsed found then table
      else { table with locks := table.locks.filter (·.1 ≠ ino) }
  | none => table

/-- The table has weak references: a lock without users is gone, and its entry
goes when another one comes in. -/
def dirLoadingLock (table : LockTable Ino) (user : Nat) (ino : Ino) :
    LockTable Ino :=
  let alive := (table.locks.lookup ino).filter table.isUsed
  match alive with
  | some found => table.enter user ino found
  | none =>
      let retained : LockTable Ino :=
        { table with locks := table.locks.filter (table.isUsed ·.2) }
      (retained.insertNew ino).enter user ino table.nextLock

section

variable {table : LockTable Ino}

theorem mem_of_lookup {ino : Ino} {found : Nat}
    (looked : table.locks.lookup ino = some found) :
    (ino, found) ∈ table.locks := by
  obtain ⟨before, after, listed, _⟩ := List.lookup_eq_some_iff.mp looked
  rw [listed]
  simp

theorem agrees_enterNew (agrees : table.Agrees) {ino : Ino}
    (absent : ino ∉ table.locks.map (·.1)) (user : Nat) :
    ((table.insertNew ino).enter user ino table.nextLock).Agrees :=
  (agrees.insertNew absent).enter List.mem_cons_self user

theorem agrees_stagingLock (user : Nat) (ino : Ino) (agrees : table.Agrees) :
    (stagingLock table user ino).Agrees := by
  unfold stagingLock
  split <;> rename_i looked
  · exact agrees.enter (mem_of_lookup looked) user
  · refine agrees_enterNew agrees ?_ user
    intro member
    obtain ⟨entry, inLocks, rfl⟩ := List.mem_map.mp member
    have other := List.lookup_eq_none_iff.mp looked entry inLocks
    simp at other

theorem agrees_forgetLockIfUnused (ino : Ino) (agrees : table.Agrees) :
    (forgetLockIfUnused table ino).Agrees := by
  unfold forgetLockIfUnused
  split <;> rename_i looked
  · rename_i found
    split <;> rename_i used
    · exact agrees
    · refine agrees.filter fun entry member isUsed => ?_
      rw [decide_eq_true_eq]
      intro same
      have equal := List.inj_on_of_nodup_map agrees.keys member
        (mem_of_lookup looked) same
      rw [equal] at isUsed
      exact used isUsed
  · exact agrees

theorem agrees_dirLoadingLock (user : Nat) (ino : Ino) (agrees : table.Agrees) :
    (dirLoadingLock table user ino).Agrees := by
  unfold dirLoadingLock
  dsimp only
  split <;> rename_i looked
  · exact agrees.enter (mem_of_lookup (Option.filter_eq_some_iff.mp looked).1)
      user
  · refine agrees_enterNew (agrees.filter fun _ _ used => used) ?_ user
    intro member
    obtain ⟨entry, retained, rfl⟩ := List.mem_map.mp member
    obtain ⟨listed, used⟩ := List.mem_filter.mp retained
    cases found : table.locks.lookup entry.1 with
    | none =>
        have other := List.lookup_eq_none_iff.mp found entry listed
        simp at other
    | some lock =>
        have equal := List.inj_on_of_nodup_map agrees.keys listed
          (mem_of_lookup found) rfl
        rw [equal] at used
        rw [found, Option.filter_some, if_pos used] at looked
        cases looked

end

/-- In every interleaving of calls that get a lock, drop it, whether it was
free or not, and forget it, two users have the same lock exactly when they are
at the same inode. -/
theorem lock_tables_serialize {events : List (LockEvent Ino)}
    {staging loading : LockTable Ino}
    (staged : exec (step stagingLock forgetLockIfUnused) new events =
      some staging)
    (loaded : exec (step dirLoadingLock fun table _ => table) new events =
      some loading) : staging.Serialized ∧ loading.Serialized := by
  constructor
  · exact serialized_of_run agrees_stagingLock agrees_forgetLockIfUnused staged
  · exact serialized_of_run agrees_dirLoadingLock (fun _ agrees => agrees)
      loaded

/-- A lock that is waited for is not forgotten. -/
theorem lock_tables_serialize_waiting :
    ∃ staging loading : LockTable Ino,
      staging.uses.map (·.user) = [2, 1] ∧ staging.Serialized ∧
        loading.Serialized :=
  ⟨_, _, rfl, @lock_tables_serialize
    [.get 0 5, .get 1 5, .drop 0, .forget 5, .get 2 5] _ _ rfl rfl⟩

end HfMount.Vfs
