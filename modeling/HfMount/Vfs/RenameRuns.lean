import HfMount.Vfs.TableRuns

/-!
# Renames that run at the same time

A rename validates under one lock, waits for the Hub, and changes the table
under another lock.  Between the phases other renames and any other operation
may run.  A rename whose validation still fits the table keeps the tree and
takes out only the entry of its source and the destination that it replaces.
-/

namespace HfMount.Inode

open SlashPath Transition Vfs

namespace InodeTable

/-- The directories form a tree below the root. -/
structure IsTree (table : InodeTable) : Prop where
  acyclic : ∀ ino, ¬ Relation.TransGen table.Lists ino ino
  oneParent : ∀ left right leftEntry rightEntry child leftName rightName,
    table.get left = some leftEntry → table.get right = some rightEntry →
    ⟨child, leftName⟩ ∈ leftEntry.children →
    ⟨child, rightName⟩ ∈ rightEntry.children →
    left = right ∧ leftName = rightName
  live : ∀ ino entry child, table.get ino = some entry →
    child ∈ entry.children → ∃ childEntry,
      table.get child.ino = some childEntry ∧ 0 < childEntry.nlink
  rooted : ∀ ino entry, table.get ino = some entry → 0 < entry.nlink →
    table.Below rootInode ino

/-- `dir` has a child entry `name` for `ino`. -/
def HasChild (table : InodeTable) (dir : Ino) (name : Name) (ino : Ino) :
    Prop :=
  ∃ entry, table.get dir = some entry ∧ ⟨ino, name⟩ ∈ entry.children

/-- The child entries that `after` lacks are the source of the rename and the
destination that it replaces. -/
def OnlyRenamed (before after : InodeTable) (info : RenameInfo)
    (request : RenameRequest) : Prop :=
  ∀ dir name ino, before.HasChild dir name ino → ¬ after.HasChild dir name ino →
    (dir = request.parent ∧ name = request.name ∧ ino = info.ino) ∨
      (dir = request.newparent ∧ name = request.newname)

/-! ## The tree of a table in order -/

theorem WellFormed.lists_deeper {table : InodeTable} (wf : table.WellFormed)
    {upper lower : Ino} (below : Relation.TransGen table.Lists upper lower) :
    ∃ upperEntry lowerEntry, table.get upper = some upperEntry ∧
      table.get lower = some lowerEntry ∧
      upperEntry.fullPath.length < lowerEntry.fullPath.length := by
  have step : ∀ {parent child}, table.Lists parent child →
      ∃ parentEntry childEntry, table.get parent = some parentEntry ∧
        table.get child = some childEntry ∧
        parentEntry.fullPath.length < childEntry.fullPath.length := by
    rintro parent child ⟨entry, name, found, listed⟩
    obtain ⟨childEntry, isChild⟩ := wf.child found listed
    refine ⟨entry, childEntry, found, isChild.found, ?_⟩
    rw [isChild.fullPath]
    exact length_lt_childPath (wf.directory found listed).2.2 _
  induction below with
  | single one => exact step one
  | tail _ one ih =>
      obtain ⟨upperEntry, middleEntry, foundUpper, foundMiddle, shorter⟩ := ih
      obtain ⟨again, lowerEntry, foundAgain, foundLower, longer⟩ := step one
      obtain rfl := Option.some.inj (foundMiddle.symm.trans foundAgain)
      exact ⟨upperEntry, lowerEntry, foundUpper, foundLower,
        Nat.lt_trans shorter longer⟩

theorem InOrder.isTree {table : InodeTable} (order : table.InOrder) :
    table.IsTree := by
  have wf := order.wf
  constructor
  · intro ino cycle
    obtain ⟨left, right, foundLeft, foundRight, longer⟩ := wf.lists_deeper cycle
    obtain rfl := Option.some.inj (foundLeft.symm.trans foundRight)
    exact Nat.lt_irrefl _ longer
  · intro left right leftEntry rightEntry child leftName rightName foundLeft
      foundRight listedLeft listedRight
    obtain ⟨first, isFirst⟩ := wf.child foundLeft listedLeft
    obtain ⟨second, isSecond⟩ := wf.child foundRight listedRight
    obtain rfl := Option.some.inj (isFirst.found.symm.trans isSecond.found)
    exact ⟨isFirst.parent.symm.trans isSecond.parent,
      isFirst.name.symm.trans isSecond.name⟩
  · intro ino entry child found listed
    obtain ⟨childEntry, isChild⟩ := wf.child found listed
    exact ⟨childEntry, isChild.found,
      (order.live_of_nlink isChild.found).mp isChild.live⟩
  · intro ino entry found links
    exact wf.below_root found ((order.live_of_nlink found).mpr links)

/-! ## What a rename takes out -/

section

variable {table : InodeTable} {info : RenameInfo} {request : RenameRequest}

/-- The same children leave the same child entries. -/
theorem hasChild_of_similar {before after : InodeTable}
    (similar : before.Similar after) {dir : Ino} {name : Name} {ino : Ino} :
    after.HasChild dir name ino ↔ before.HasChild dir name ino := by
  constructor
  · rintro ⟨other, found, listed⟩
    obtain ⟨entry, got, same⟩ := similar.backward found
    exact ⟨entry, got, same.children ▸ listed⟩
  · rintro ⟨entry, found, listed⟩
    obtain ⟨other, got, same⟩ := similar.forward found
    exact ⟨other, got, same.children.symm ▸ listed⟩

/-- Moving the source takes out its old entry only. -/
theorem Movable.onlyRenamed {entry newEntry : InodeEntry}
    (movable : table.Movable info request entry newEntry)
    (wf : table.WellFormed) (now : Time) {dir : Ino} {name : Name} {ino : Ino}
    (before : table.HasChild dir name ino)
    (after : ¬ (table.moveRenamed info request now).HasChild dir name ino) :
    dir = request.parent ∧ name = request.name ∧ ino = info.ino := by
  obtain ⟨_, recorded, moved, recordedDef, _, _, isMoved, result⟩ :=
    movable.moveRenamed wf now
  have owing : Corresponding InodeEntry.Owing table recorded :=
    recordedDef ▸ table.owing_record info
  have similar : table.Similar recorded :=
    owing.mono fun _ _ same => same.sameNode
  rw [result, hasChild_of_similar (similar_touchRenamed _ _ _ _)] at after
  obtain ⟨source, found, listed⟩ := (hasChild_of_similar similar).mpr before
  obtain ⟨target, foundTarget, same, _⟩ := isMoved.kept found
  have isSource : ino = info.ino := by
    by_contra other
    exact after ⟨target, foundTarget,
      (same.children _).mpr (Or.inl ⟨listed, other⟩)⟩
  obtain ⟨dirEntry, foundDir, inChildren⟩ := before
  obtain ⟨childEntry, isChild⟩ := wf.child foundDir inChildren
  have foundChild : table.get info.ino = some childEntry :=
    isSource ▸ isChild.found
  obtain rfl := Option.some.inj (movable.found.symm.trans foundChild)
  exact ⟨isChild.parent.symm.trans movable.parent,
    isChild.name.symm.trans movable.name, isSource⟩

theorem Applied.onlyRenamed {now : Time} {dropped : Option Ino}
    {after : InodeTable} (applied : Applied table info request now dropped after)
    (wf : table.WellFormed) : table.OnlyRenamed after info request := by
  intro dir name ino before gone
  cases applied with
  | sameInode => exact absurd before gone
  | free _ movable => exact Or.inl (movable.onlyRenamed wf now before gone)
  | @replaced existing _ _ looked _ pruned movable =>
      by_cases isTarget : ino = existing.inode
      · right
        obtain ⟨_, _, _, isExisting⟩ := wf.lookupChild.mp looked
        obtain ⟨dirEntry, foundDir, inChildren⟩ := before
        obtain ⟨childEntry, isChild⟩ := wf.child foundDir inChildren
        have foundChild : table.get existing.inode = some childEntry :=
          isTarget ▸ isChild.found
        obtain rfl := Option.some.inj (foundChild.symm.trans isExisting.found)
        exact ⟨isChild.parent.symm.trans isExisting.parent,
          isChild.name.symm.trans isExisting.name⟩
      · left
        obtain ⟨dirEntry, foundDir, inChildren⟩ := before
        have stays : dir ≠ existing.inode := by
          rintro rfl
          exact isTarget (pruned.closed rfl foundDir inChildren)
        obtain ⟨kept, foundKept, _, _, _, children⟩ :=
          pruned.kept stays foundDir
        exact movable.onlyRenamed (wf.pruned pruned) now
          ⟨kept, foundKept, (children _).mpr ⟨inChildren, isTarget⟩⟩ gone

end

end InodeTable

/-! ## Runs -/

/-- A rename between its validation and its local half. -/
structure RenameCall where
  request : RenameRequest
  info : RenameInfo
  sent : Bool

structure Renames where
  table : InodeTable
  calls : Nat → Option RenameCall

inductive RenameEvent where
  /-- create, mkdir, unlink and every other operation. -/
  | other (op : TableOp)
  | validate (id : Nat) (request : RenameRequest)
  | remote (id : Nat)
  | applyLocal (id : Nat) (now : Time)

namespace Renames

def new : Renames :=
  { table := .new
    calls := fun _ => none }

def step (state : Renames) : RenameEvent → Option Renames
  | .other op =>
      (state.table.applyOp op).map fun table => { state with table }
  | .validate id request =>
      match state.table.renameValidate request with
      | .ok info => some { state with
          calls := Function.update state.calls id
            (some { request, info, sent := false }) }
      | .error _ => none
  | .remote id =>
      (state.calls id).map fun call => { state with
        calls := Function.update state.calls id
          (some { call with sent := true }) }
  | .applyLocal id now =>
      ((state.calls id).filter (·.sent)).bind fun call =>
        (state.table.applyOp
          (.renameApplyLocal call.info call.request now)).map fun table =>
            { table
              calls := Function.update state.calls id none }

def Fits (state : Renames) : RenameEvent → Prop
  | .other op => state.table.Fits op
  | .validate _ _ => True
  | .remote _ => True
  | .applyLocal id now => ∀ call ∈ state.calls id,
      state.table.Fits (.renameApplyLocal call.info call.request now)

instance decidableFits (state : Renames) (event : RenameEvent) :
    Decidable (state.Fits event) := by
  cases event <;> unfold Fits <;> infer_instance

theorem inOrder_step {before after : Renames} {event : RenameEvent}
    (order : before.table.InOrder) (fits : before.Fits event)
    (stepped : before.step event = some after) : after.table.InOrder := by
  cases event with
  | other op =>
      obtain ⟨table, applied, rfl⟩ := Option.map_eq_some_iff.mp stepped
      exact order.applyOp fits applied
  | validate id request =>
      simp only [step] at stepped
      split at stepped
      · obtain rfl := Option.some.inj stepped
        exact order
      · cases stepped
  | remote id =>
      obtain ⟨call, _, rfl⟩ := Option.map_eq_some_iff.mp stepped
      exact order
  | applyLocal id now =>
      obtain ⟨call, found, moved⟩ := Option.bind_eq_some_iff.mp stepped
      obtain ⟨table, applied, rfl⟩ := Option.map_eq_some_iff.mp moved
      exact order.applyOp (fits call (Option.filter_eq_some_iff.mp found).1)
        applied

/-- A rename that fits takes out its source and its destination only. -/
theorem onlyRenamed_applyOp {table after : InodeTable} (order : table.InOrder)
    {info : RenameInfo} {request : RenameRequest} {now : Time}
    (fits : table.Fits (.renameApplyLocal info request now))
    (applied : table.applyOp (.renameApplyLocal info request now) =
      some after) : table.OnlyRenamed after info request := by
  have unchanged : table.OnlyRenamed table info request :=
    fun _ _ _ before gone => absurd before gone
  simp only [InodeTable.applyOp, Option.ite_none_right_eq_some,
    Bool.and_eq_true, decide_eq_true_eq] at applied
  obtain ⟨⟨directory, valid⟩, applied⟩ := applied
  split at applied <;> rename_i result
  · obtain rfl := Option.some.inj applied
    cases moves : table.renameMoves info request with
    | false =>
        rw [InodeTable.renameApplyLocal_of_not_moves moves result]
        exact unchanged
    | true =>
        have isDirectory : ∀ entry, table.get request.newparent = some entry →
            entry.kind = .directory := by
          intro entry found
          rw [found] at directory
          exact of_decide_eq_true directory
        obtain ⟨src, newParentEntry, current⟩ :=
          InodeTable.current_of_fits isDirectory valid (fits moves)
        exact (current.applied order.wf result).onlyRenamed order.wf
  · obtain rfl := Option.some.inj applied
    exact unchanged

/-- After every rename whose validation still fits, in a run of fitting steps,
the directories are a tree, and only the source and the replaced destination
have lost their entries. -/
theorem tree_kept_of_fits {events : List RenameEvent} {before after : Renames}
    {id : Nat} {now : Time} {call : RenameCall}
    (fits : AllSteps step Fits new events)
    (run : exec step new events = some before)
    (called : before.calls id = some call)
    (fit : before.Fits (.applyLocal id now))
    (applied : before.step (.applyLocal id now) = some after) :
    after.table.IsTree ∧
      before.table.OnlyRenamed after.table call.info call.request := by
  have order : before.table.InOrder :=
    @exec_invariant _ _ step Fits (fun state => state.table.InOrder)
      (fun _ _ _ inOrder good stepped => inOrder_step inOrder good stepped)
      new before events InodeTable.inOrder_new fits run
  refine ⟨(inOrder_step order fit applied).isTree, ?_⟩
  obtain ⟨other, found, moved⟩ := Option.bind_eq_some_iff.mp applied
  obtain ⟨table, result, rfl⟩ := Option.map_eq_some_iff.mp moved
  obtain rfl := Option.some.inj
    (called.symm.trans (Option.filter_eq_some_iff.mp found).1)
  exact onlyRenamed_applyOp order (fit call called) result

/-- A file `a` and the directories `d` and `e`. -/
def fileAndDirectories : List RenameEvent :=
  [.other (.insert rootInode ['a'] ['a'] .file 0 0 none 420 0 0 0),
    .other (.insert rootInode ['d'] ['d'] .directory 0 1 none 493 0 0 1),
    .other (.insert rootInode ['e'] ['e'] .directory 0 2 none 493 0 0 2)]

/-- `a` is renamed to `d/x` and to `e/y` at the same time. -/
def renamedTwice : List RenameEvent :=
  fileAndDirectories ++
    [.validate 0 ⟨rootInode, ['a'], 3, ['x'], false⟩,
      .validate 1 ⟨rootInode, ['a'], 4, ['y'], false⟩,
      .remote 0, .remote 1]

theorem tree_kept_of_fits_first_of_two :
    ((exec step new (renamedTwice ++ [.applyLocal 0 3])).get
      (by decide)).table.IsTree := by
  have kept := @tree_kept_of_fits renamedTwice
    ((exec step new renamedTwice).get (by decide))
    ((exec step new (renamedTwice ++ [.applyLocal 0 3])).get (by decide)) 0 3 _
    (by decide) (Option.some_get _).symm rfl (by decide) rfl
  exact kept.1

/-- The second of the two detaches `a` under its old name, which is gone, and
makes it a child of a second directory. -/
theorem tree_not_kept : ¬ ∀ (events : List RenameEvent)
    (before after : Renames) (id : Nat) (now : Time) (call : RenameCall),
    exec step new events = some before → before.calls id = some call →
    before.step (.applyLocal id now) = some after →
    after.table.IsTree ∧
      before.table.OnlyRenamed after.table call.info call.request := by
  intro claim
  have kept := claim (renamedTwice ++ [.applyLocal 0 3]) _ _ 1 4 _ rfl rfl rfl
  have same := kept.1.oneParent 3 4 _ _ 2 ['x'] ['y'] rfl rfl
    (by decide) (by decide)
  cases same.1

end Renames

end HfMount.Inode
