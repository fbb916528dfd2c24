import HfMount.Basic
import Mathlib.Logic.Function.Basic

/-!
# The remote

The bucket maps paths to content hashes.  A batch applies its additions first
and its deletions after them, in the order that the Hub requires.
-/

namespace HfMount.Vfs

open SlashPath

abbrev Remote := Path → Option Hash

inductive BatchOp where
  | addFile (path : Path) (xetHash : Hash)
  | deleteFile (path : Path)
  deriving DecidableEq

namespace BatchOp

@[simp] def path : BatchOp → Path
  | .addFile path _ => path
  | .deleteFile path => path

def isAdd : BatchOp → Bool
  | .addFile _ _ => true
  | .deleteFile _ => false

/-- What the operation leaves at its path. -/
@[simp] def value : BatchOp → Option Hash
  | .addFile _ xetHash => some xetHash
  | .deleteFile _ => none

def apply (remote : Remote) (op : BatchOp) : Remote :=
  Function.update remote op.path op.value

end BatchOp

def batchOperations (remote : Remote) (ops : List BatchOp) : Remote :=
  (ops.filter (·.isAdd) ++ ops.filter (!·.isAdd)).foldl BatchOp.apply remote

/-! ## What a batch leaves at a path -/

theorem foldl_apply_of_untouched {path : Path} {ops : List BatchOp}
    (untouched : ∀ op ∈ ops, op.path ≠ path) (remote : Remote) :
    ops.foldl BatchOp.apply remote path = remote path := by
  induction ops generalizing remote with
  | nil => rfl
  | cons op ops ih =>
      rw [List.foldl_cons, ih fun other member =>
        untouched other (List.mem_cons_of_mem _ member)]
      exact Function.update_of_ne (untouched op List.mem_cons_self).symm _ _

/-- When the operations on a path agree, they decide what is there. -/
theorem foldl_apply_of_touched {path : Path} {value : Option Hash}
    {ops : List BatchOp} (touched : ∃ op ∈ ops, op.path = path)
    (agree : ∀ op ∈ ops, op.path = path → op.value = value)
    (remote : Remote) : ops.foldl BatchOp.apply remote path = value := by
  induction ops generalizing remote with
  | nil => simp at touched
  | cons op ops ih =>
      rw [List.foldl_cons]
      by_cases later : ∃ other ∈ ops, other.path = path
      · exact ih later (fun other member =>
          agree other (List.mem_cons_of_mem _ member)) _
      · have untouched : ∀ other ∈ ops, other.path ≠ path :=
          fun other member same => later ⟨other, member, same⟩
        have here : op.path = path := by
          obtain ⟨other, member, same⟩ := touched
          rcases List.mem_cons.mp member with rfl | inTail
          · exact same
          · exact absurd same (untouched other inTail)
        rw [foldl_apply_of_untouched untouched, ← agree op List.mem_cons_self
          here, ← here]
        exact Function.update_self _ _ _

theorem batchOperations_eq (remote : Remote) (ops : List BatchOp) :
    batchOperations remote ops =
      (ops.filter (!·.isAdd)).foldl BatchOp.apply
        ((ops.filter (·.isAdd)).foldl BatchOp.apply remote) :=
  List.foldl_append

theorem batch_of_deleted {path : Path} {ops : List BatchOp}
    (deleted : .deleteFile path ∈ ops) (remote : Remote) :
    batchOperations remote ops path = none := by
  rw [batchOperations_eq]
  apply foldl_apply_of_touched
  · exact ⟨_, List.mem_filter.mpr ⟨deleted, rfl⟩, rfl⟩
  · intro op member _
    cases op with
    | addFile path hash => simp [BatchOp.isAdd] at member
    | deleteFile path => rfl

theorem batch_of_not_deleted {path : Path} {ops : List BatchOp}
    (notDeleted : .deleteFile path ∉ ops) (remote : Remote) :
    batchOperations remote ops path =
      (ops.filter (·.isAdd)).foldl BatchOp.apply remote path := by
  rw [batchOperations_eq]
  apply foldl_apply_of_untouched
  rintro op member rfl
  cases op with
  | addFile path hash => simp [BatchOp.isAdd] at member
  | deleteFile path => exact notDeleted (List.mem_filter.mp member).1

theorem batch_of_added {path : Path} {hash : Hash} {ops : List BatchOp}
    (added : .addFile path hash ∈ ops)
    (once : ∀ other, .addFile path other ∈ ops → other = hash)
    (notDeleted : .deleteFile path ∉ ops) (remote : Remote) :
    batchOperations remote ops path = some hash := by
  rw [batch_of_not_deleted notDeleted]
  apply foldl_apply_of_touched
  · exact ⟨_, List.mem_filter.mpr ⟨added, rfl⟩, rfl⟩
  · rintro op member rfl
    cases op with
    | addFile path other =>
        rw [BatchOp.value, once other (List.mem_filter.mp member).1]
    | deleteFile path => simp [BatchOp.isAdd] at member

theorem batch_of_untouched {path : Path} {ops : List BatchOp}
    (notAdded : ∀ hash, .addFile path hash ∉ ops)
    (notDeleted : .deleteFile path ∉ ops) (remote : Remote) :
    batchOperations remote ops path = remote path := by
  rw [batch_of_not_deleted notDeleted]
  apply foldl_apply_of_untouched
  rintro op member rfl
  cases op with
  | addFile path hash => exact notAdded hash (List.mem_filter.mp member).1
  | deleteFile path => simp [BatchOp.isAdd] at member

/-- The batch that `flushPendingDeletes` sends. -/
theorem batch_of_deletes (paths : List Path) (remote : Remote) (path : Path) :
    batchOperations remote (paths.map .deleteFile) path =
      if path ∈ paths then none else remote path := by
  split <;> rename_i member
  · exact batch_of_deleted (List.mem_map.mpr ⟨path, member, rfl⟩) remote
  · apply batch_of_untouched
    · simp
    · simpa using member

end HfMount.Vfs
