import HfMount.Flush.CurrentContent

/-!
# How far a staging file reaches

The size of an inode grows to the end of each write and is set by truncations,
commits and updates from the remote.  A size is level with the staging file
when the file ends at the size or at the end of a write in progress.
-/

namespace HfMount.Flush

open Inode Transition

/-- The operation rewrites or cuts the staging file. -/
def FileOp.rewrites : FileOp → Bool
  | .preparing _ _ _ | .filled _ _ _ | .truncateReady _ _ => true
  | .prepared truncate _ => truncate
  | .opening _ _ _ | .truncating _ | .writing _ _ => false

/-- An open without `O_TRUNC` has the staging file ready. -/
def FileOp.keeps : FileOp → Bool
  | .filled _ _ truncate | .prepared truncate _ => !truncate
  | _ => false

/-- An open with `O_TRUNC` has emptied the staging file. -/
def FileOp.empties : FileOp → Bool
  | .filled _ _ truncate | .prepared truncate _ => truncate
  | _ => false

/-- The staging file has been cut and the inode does not say so yet. -/
def FileOp.cuts : FileOp → Bool
  | .filled _ _ truncate => truncate
  | .prepared truncate changed => truncate && changed
  | .truncateReady _ changed => changed
  | _ => false

/-- The operation waits for the lock. -/
structure FileOp.Waits (op : FileOp) : Prop where
  free : op.holdsLock = false
  writes : ∀ newEnd changed, op ≠ .writing newEnd changed

theorem FileOp.holdsLock_of_rewrites {op : FileOp}
    (rewrites : op.rewrites = true) : op.holdsLock = true := by
  cases op <;> first | rfl | cases rewrites

theorem FileOp.holdsLock_of_keeps {op : FileOp} (keeps : op.keeps = true) :
    op.holdsLock = true := by
  cases op <;> first | rfl | cases keeps

theorem FileOp.holdsLock_of_empties {op : FileOp}
    (empties : op.empties = true) : op.holdsLock = true := by
  cases op <;> first | rfl | cases empties

theorem FileOp.rewrites_of_cuts {op : FileOp} (cuts : op.cuts = true) :
    op.rewrites = true := by
  cases op with
  | filled hash size truncate => rfl
  | prepared truncate changed => exact (Bool.and_eq_true_iff.mp cuts).1
  | truncateReady newSize changed => rfl
  | opening hash size truncate => cases cuts
  | preparing hash size truncate => cases cuts
  | truncating newSize => cases cuts
  | writing newEnd changed => cases cuts

theorem FileOp.changed_of_cuts {op : FileOp} (cuts : op.cuts = true) :
    op.changed = true := by
  cases op with
  | filled hash size truncate => rfl
  | prepared truncate changed => exact (Bool.and_eq_true_iff.mp cuts).2
  | truncateReady newSize changed => exact cuts
  | opening hash size truncate => cases cuts
  | preparing hash size truncate => cases cuts
  | truncating newSize => cases cuts
  | writing newEnd changed => cases cuts

theorem FileOp.rewrites_of_empties {op : FileOp} (empties : op.empties = true) :
    op.rewrites = true := by
  cases op with
  | filled hash size truncate => rfl
  | prepared truncate changed => exact empties
  | truncateReady newSize changed => rfl
  | opening hash size truncate => cases empties
  | preparing hash size truncate => cases empties
  | truncating newSize => cases empties
  | writing newEnd changed => cases empties

theorem FileOp.not_cuts_of_keeps {op : FileOp} (keeps : op.keeps = true) :
    op.cuts = false := by
  cases op with
  | filled hash size truncate =>
      have kept : truncate = false := by simpa [FileOp.keeps] using keeps
      exact kept
  | prepared truncate changed =>
      have kept : truncate = false := by simpa [FileOp.keeps] using keeps
      rw [kept]
      rfl
  | truncateReady newSize changed => cases keeps
  | opening hash size truncate => rfl
  | preparing hash size truncate => rfl
  | truncating newSize => rfl
  | writing newEnd changed => rfl

namespace StagedFile

def stagedLength (file : StagedFile) : Option Nat :=
  file.staging.map fun staged => (file.disk staged).length

/-- A write in progress ends here. -/
def PendingEnd (file : StagedFile) (newEnd : Nat) : Prop :=
  ∃ id changed, file.op id = some (.writing newEnd changed)

def Writing (file : StagedFile) : Prop := ∃ newEnd, file.PendingEnd newEnd

/-- The staging file ends at the size or at the end of a write in progress,
whichever is last. -/
structure LevelAt (file : StagedFile) (size : Nat) : Prop where
  reach : ∃ length, file.stagedLength = some length ∧ size ≤ length ∧
    (∀ newEnd, file.PendingEnd newEnd → newEnd ≤ length) ∧
    (length ≤ size ∨ ∃ newEnd, file.PendingEnd newEnd ∧ length ≤ newEnd)

/-- Some operation has cut the staging file. -/
def Cutting (file : StagedFile) : Prop :=
  ∃ id op, file.op id = some op ∧ op.cuts = true

theorem markedEntry_size (entry : InodeEntry) (hash : Hash) (size : Nat)
    (truncate : Bool) :
    (markedEntry entry hash size truncate).size = entry.size := by
  unfold markedEntry
  dsimp only
  split <;> rfl

/-! ## Writes -/

theorem length_writeAt (content : Bytes) (offset : Nat) {data : Bytes}
    (nonempty : data ≠ []) : (writeAt content offset data).length =
      max content.length (offset + data.length) := by
  have positive := List.length_pos_of_ne_nil nonempty
  unfold writeAt
  rw [if_neg (by simpa using nonempty)]
  simp only [List.length_append, List.length_take, List.length_replicate,
    List.length_drop]
  omega

theorem length_writeAt_inside {content : Bytes} {offset : Nat} {data : Bytes}
    (inside : offset + data.length ≤ content.length) :
    (writeAt content offset data).length = content.length := by
  by_cases empty : data = []
  · rw [empty]
    rfl
  · rw [length_writeAt content offset empty, Nat.max_eq_left inside]

theorem length_setLen (content : Bytes) (size : Nat) :
    (setLen content size).length = size := by
  unfold setLen
  simp only [List.length_append, List.length_take, List.length_replicate]
  omega

section

variable {file before after : StagedFile} {id size newEnd : Nat}

/-- The same writes are in progress. -/
theorem pendingEnd_replace {next : Option FileOp}
    (ops : after.op = Function.update before.op id next)
    (old : ∀ newEnd changed, before.op id ≠ some (.writing newEnd changed))
    (new : ∀ newEnd changed, next ≠ some (.writing newEnd changed)) :
    after.PendingEnd newEnd ↔ before.PendingEnd newEnd := by
  constructor
  · rintro ⟨other, changed, found⟩
    rw [ops] at found
    by_cases same : other = id
    · subst same
      rw [Function.update_self] at found
      exact absurd found (new newEnd changed)
    · rw [Function.update_of_ne same] at found
      exact ⟨other, changed, found⟩
  · rintro ⟨other, changed, found⟩
    have different : other ≠ id := by
      rintro rfl
      exact old newEnd changed found
    refine ⟨other, changed, ?_⟩
    rw [ops, Function.update_of_ne different]
    exact found

theorem pendingEnd_begin {changed : Bool} {other : Nat}
    (ops : after.op = Function.update before.op id
      (some (.writing newEnd changed)))
    (absent : before.op id = none) :
    after.PendingEnd other ↔ other = newEnd ∨ before.PendingEnd other := by
  constructor
  · rintro ⟨writer, written, found⟩
    rw [ops] at found
    by_cases same : writer = id
    · subst same
      rw [Function.update_self] at found
      cases found
      exact Or.inl rfl
    · rw [Function.update_of_ne same] at found
      exact Or.inr ⟨writer, written, found⟩
  · rintro (rfl | ⟨writer, written, found⟩)
    · refine ⟨id, changed, ?_⟩
      rw [ops, Function.update_self]
    · have different : writer ≠ id := by
        rintro rfl
        rw [absent] at found
        cases found
      refine ⟨writer, written, ?_⟩
      rw [ops, Function.update_of_ne different]
      exact found

theorem pendingEnd_of_done {other : Nat}
    (ops : after.op = Function.update before.op id none)
    (pending : after.PendingEnd other) : before.PendingEnd other := by
  obtain ⟨writer, written, found⟩ := pending
  rw [ops] at found
  by_cases same : writer = id
  · subst same
    rw [Function.update_self] at found
    cases found
  · rw [Function.update_of_ne same] at found
    exact ⟨writer, written, found⟩

/-- Once a write is over the others are still in progress. -/
theorem pendingEnd_done {changed : Bool} {other : Nat}
    (ops : after.op = Function.update before.op id none)
    (running : before.op id = some (.writing newEnd changed))
    (pending : before.PendingEnd other) :
    other = newEnd ∨ after.PendingEnd other := by
  obtain ⟨writer, written, found⟩ := pending
  by_cases same : writer = id
  · subst same
    rw [running] at found
    cases found
    exact Or.inl rfl
  · refine Or.inr ⟨writer, written, ?_⟩
    rw [ops, Function.update_of_ne same]
    exact found

theorem LevelAt.same (level : before.LevelAt size)
    (length : after.stagedLength = before.stagedLength)
    (ends : ∀ newEnd, after.PendingEnd newEnd ↔ before.PendingEnd newEnd) :
    after.LevelAt size := by
  obtain ⟨reach, staged, inside, pending, attained⟩ := level.reach
  refine ⟨reach, length.trans staged, inside, ?_, ?_⟩
  · intro newEnd listed
    exact pending newEnd ((ends newEnd).mp listed)
  · refine attained.imp_right ?_
    rintro ⟨newEnd, listed, late⟩
    exact ⟨newEnd, (ends newEnd).mpr listed, late⟩

/-- Without writes in progress the size is the length of the file. -/
theorem levelAt_iff_of_not_writing (none : ¬ file.Writing) :
    file.LevelAt size ↔ file.stagedLength = some size := by
  constructor
  · intro level
    obtain ⟨length, staged, inside, _, attained⟩ := level.reach
    rcases attained with within | ⟨newEnd, pending, _⟩
    · rw [staged, Nat.le_antisymm within inside]
    · exact absurd ⟨newEnd, pending⟩ none
  · intro staged
    refine ⟨size, staged, le_rfl, ?_, Or.inl le_rfl⟩
    intro newEnd pending
    exact absurd ⟨newEnd, pending⟩ none

/-- A write begins that ends at `newEnd`. -/
theorem LevelAt.begin (level : before.LevelAt size)
    (ends : ∀ other, after.PendingEnd other ↔
      other = newEnd ∨ before.PendingEnd other)
    (length : ∀ length, before.stagedLength = some length →
      after.stagedLength = some (max length newEnd)) :
    after.LevelAt size := by
  obtain ⟨reach, staged, inside, pending, attained⟩ := level.reach
  refine ⟨max reach newEnd, length reach staged,
    inside.trans (Nat.le_max_left _ _), ?_, ?_⟩
  · intro other listed
    rcases (ends other).mp listed with rfl | earlier
    · exact Nat.le_max_right _ _
    · exact (pending other earlier).trans (Nat.le_max_left _ _)
  · rcases Nat.le_total reach newEnd with extends' | within
    · rw [Nat.max_eq_right extends']
      exact Or.inr ⟨newEnd, (ends newEnd).mpr (Or.inl rfl), le_rfl⟩
    · rw [Nat.max_eq_left within]
      refine attained.imp_right ?_
      rintro ⟨other, listed, late⟩
      exact ⟨other, (ends other).mpr (Or.inr listed), late⟩

/-- A write that ended at `newEnd` is recorded. -/
theorem LevelAt.record (level : before.LevelAt size)
    (recorded : before.PendingEnd newEnd)
    (ends : ∀ other, after.PendingEnd other → before.PendingEnd other)
    (kept : ∀ other, before.PendingEnd other →
      other = newEnd ∨ after.PendingEnd other)
    (length : after.stagedLength = before.stagedLength) :
    after.LevelAt (max size newEnd) := by
  obtain ⟨reach, staged, inside, pending, attained⟩ := level.reach
  refine ⟨reach, length.trans staged,
    Nat.max_le.mpr ⟨inside, pending newEnd recorded⟩, ?_, ?_⟩
  · intro other listed
    exact pending other (ends other listed)
  · rcases attained with within | ⟨other, listed, late⟩
    · exact Or.inl (within.trans (Nat.le_max_left _ _))
    · rcases kept other listed with rfl | still
      · exact Or.inl (late.trans (Nat.le_max_right _ _))
      · exact Or.inr ⟨other, still, late⟩

/-- A size between that of the inode and the end of the file. -/
theorem LevelAt.between (level : file.LevelAt size) {other : Nat}
    (least : size ≤ other)
    (most : ∀ length, file.stagedLength = some length → other ≤ length) :
    file.LevelAt other := by
  obtain ⟨length, staged, _, pending, attained⟩ := level.reach
  exact ⟨length, staged, most length staged, pending,
    attained.imp_left fun within => within.trans least⟩

theorem LevelAt.staged (level : file.LevelAt size) :
    ∃ staged, file.staging = some staged := by
  obtain ⟨length, found, _⟩ := level.reach
  obtain ⟨staged, isStaged, _⟩ := Option.map_eq_some_iff.mp found
  exact ⟨staged, isStaged⟩

end

end StagedFile

end HfMount.Flush
