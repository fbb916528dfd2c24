import HfMount.Streaming.Chain

/-!
# Back to the last commit

Every writer carries what its file was when it was last committed, or loaded;
one that supersedes another takes this over.  So a failed commit brings the
file back to its last commit, whatever writers came in between.
-/

namespace HfMount.Streaming

open SlashPath Inode Vfs Interleaving Program

/-- What every file was when it was last committed, or loaded. -/
abbrev LastCommit := Ino → Option InodeSnapshot

/-- One writer for each dirty file, which has its last commit. -/
structure Tracks (last : LastCommit) (seen : Writers) : Prop where
  linked : seen.inodes.AllLinked
  allocated : ∀ fh, (seen.writer fh).IsActive → fh < seen.nextFileHandle
  owns : ∀ fh, (seen.writer fh).IsActive → seen.Owns fh
  alone : ∀ first second, (seen.writer first).IsActive →
    (seen.writer second).IsActive →
    (seen.writer first).ino = (seen.writer second).ino → first = second
  recorded : ∀ fh, (seen.writer fh).IsActive →
    last (seen.writer fh).ino =
      if (seen.writer fh).snapshot.existedBefore then
        some (seen.writer fh).snapshot
      else none
  clean : ∀ ino state, seen.inodes.fileState ino = some state →
    (∀ fh, (seen.writer fh).IsActive → (seen.writer fh).ino ≠ ino) →
    state.1 = 0 ∧ last ino = some state.2
  kept : ∀ ino, seen.inodes.fileState ino = none → last ino = none

/-- Every writer with bytes to commit has an open handle. -/
def Writers.Held (seen : Writers) : Prop :=
  ∀ fh, (seen.writer fh).IsActive → fh ∈ seen.openFiles

/-- The same files, with the same writers. -/
structure Alike (before after : Writers) : Prop where
  linked : after.inodes.AllLinked
  fileState : ∀ ino, after.inodes.fileState ino = before.inodes.fileState ino
  allocated : before.nextFileHandle ≤ after.nextFileHandle
  active : ∀ fh, (after.writer fh).IsActive ↔ (before.writer fh).IsActive
  writer : ∀ fh, (after.writer fh).ino = (before.writer fh).ino ∧
    (after.writer fh).snapshot = (before.writer fh).snapshot ∧
    (after.writer fh).dirtyGenerationAtOpen =
      (before.writer fh).dirtyGenerationAtOpen

theorem Tracks.alike {last : LastCommit} {before after : Writers}
    (tracks : Tracks last before) (alike : Alike before after) :
    Tracks last after := by
  constructor
  · exact alike.linked
  · intro fh active
    exact Nat.lt_of_lt_of_le
      (tracks.allocated fh ((alike.active fh).mp active)) alike.allocated
  · intro fh active
    obtain ⟨ino, _, generation⟩ := alike.writer fh
    obtain ⟨snapshot, isState⟩ := tracks.owns fh ((alike.active fh).mp active)
    exact ⟨snapshot, by rw [alike.fileState, ino, generation, isState]⟩
  · intro first second activeFirst activeSecond same
    rw [(alike.writer first).1, (alike.writer second).1] at same
    exact tracks.alone first second ((alike.active first).mp activeFirst)
      ((alike.active second).mp activeSecond) same
  · intro fh active
    obtain ⟨ino, snapshot, _⟩ := alike.writer fh
    rw [ino, snapshot]
    exact tracks.recorded fh ((alike.active fh).mp active)
  · intro ino state isState idle
    rw [alike.fileState] at isState
    refine tracks.clean ino state isState fun fh active => ?_
    rw [← (alike.writer fh).1]
    exact idle fh ((alike.active fh).mpr active)
  · intro ino missing
    rw [alike.fileState] at missing
    exact tracks.kept ino missing

section

variable {last : LastCommit} {seen : Writers} {fh : FileHandle}

/-! ## Steps that leave the writers -/

theorem alike_setState (linked : seen.inodes.AllLinked) {state : CommitState}
    (active : (seen.writer fh).IsActive) (isOpen : state.isTerminal = false) :
    Alike seen (seen.setState fh state) := by
  refine ⟨linked, fun _ => rfl, Nat.le_refl _, ?_, ?_⟩
  · intro other
    by_cases here : other = fh
    · subst here
      simp [Writers.setState, Writers.setWriter, Writer.IsActive, isOpen,
        show (seen.writer other).state.isTerminal = false from active]
    · simp [Writers.setState, Writers.setWriter, here]
  · intro other
    by_cases here : other = fh
    · subst here
      simp [Writers.setState, Writers.setWriter]
    · simp [Writers.setState, Writers.setWriter, here]

/-- A change of the table that no file shows. -/
theorem alike_inodes {inodes : InodeTable} {openFiles : List FileHandle}
    (linked : inodes.AllLinked)
    (same : ∀ ino, inodes.fileState ino = seen.inodes.fileState ino) :
    Alike seen { seen with inodes, openFiles } :=
  ⟨linked, same, Nat.le_refl _, fun _ => Iff.rfl, fun _ => ⟨rfl, rfl, rfl⟩⟩

theorem linked_bumpOpenHandles {table : InodeTable} (linked : table.AllLinked)
    (ino : Ino) : (table.bumpOpenHandles ino).AllLinked ∧
      ∀ other, (table.bumpOpenHandles ino).fileState other =
        table.fileState other :=
  ⟨linked.modify ino fun _ => .of_fields rfl,
    table.fileState_modify_same ino (fun _ => rfl) fun _ _ => rfl⟩

theorem linked_dropOpenHandles {table : InodeTable} (linked : table.AllLinked)
    (ino : Ino) : (table.dropOpenHandles ino).AllLinked ∧
      ∀ other, (table.dropOpenHandles ino).fileState other =
        table.fileState other :=
  ⟨linked.modify ino fun _ => .of_fields rfl,
    table.fileState_modify_same ino (fun _ => rfl) fun _ _ => rfl⟩

/-- An inode with a link is not reaped. -/
theorem dropHandle_eq (linked : seen.inodes.AllLinked) (ino : Ino) :
    seen.dropHandle ino =
      { seen with inodes := seen.inodes.dropOpenHandles ino } := by
  unfold Writers.dropHandle
  dsimp only
  rw [(linked_dropOpenHandles linked ino).1.removeOrphan, ite_self]

theorem Tracks.dropHandle (tracks : Tracks last seen) (ino : Ino) :
    Tracks last (seen.dropHandle ino) := by
  obtain ⟨linked, same⟩ := linked_dropOpenHandles tracks.linked ino
  rw [dropHandle_eq tracks.linked]
  exact tracks.alike (alike_inodes linked same)

theorem Tracks.closeHandle (tracks : Tracks last seen) (fh : FileHandle) :
    Tracks last (seen.closeHandle fh) :=
  tracks.alike (alike_inodes tracks.linked fun _ => rfl)

/-! ## Steps of a writer -/

/-- The file of an active writer. -/
theorem Tracks.found (tracks : Tracks last seen)
    (active : (seen.writer fh).IsActive) :
    ∃ entry, seen.inodes.get (seen.writer fh).ino = some entry ∧
      entry.kind = .file ∧
      entry.dirtyGeneration = (seen.writer fh).dirtyGenerationAtOpen := by
  obtain ⟨snapshot, isState⟩ := tracks.owns fh active
  obtain ⟨entry, found, file, same⟩ :=
    InodeTable.fileState_eq_some.mp isState
  exact ⟨entry, found, file, congrArg Prod.fst same⟩

/-- Only the file of one active writer changes, and that writer stays. -/
theorem Tracks.rewrite (tracks : Tracks last seen)
    (active : (seen.writer fh).IsActive) {inodes : InodeTable}
    (linked : inodes.AllLinked)
    (here : ∃ snapshot, inodes.fileState (seen.writer fh).ino =
      some ((seen.writer fh).dirtyGenerationAtOpen, snapshot))
    (others : ∀ other, other ≠ (seen.writer fh).ino →
      inodes.fileState other = seen.inodes.fileState other) :
    Tracks last { seen with inodes } := by
  refine ⟨linked, tracks.allocated, ?_, tracks.alone, tracks.recorded, ?_, ?_⟩
  · intro other activeOther
    by_cases same : other = fh
    · rw [same]
      exact here
    · obtain ⟨snapshot, isState⟩ := tracks.owns other activeOther
      refine ⟨snapshot, (others _ fun sameIno => same ?_).trans isState⟩
      exact tracks.alone other fh activeOther active sameIno
  · intro ino state isState idle
    rw [others ino fun same => idle fh active same.symm] at isState
    exact tracks.clean ino state isState idle
  · intro ino missing
    by_cases same : ino = (seen.writer fh).ino
    · obtain ⟨snapshot, isState⟩ := here
      rw [same, isState] at missing
      cases missing
    · rw [others ino same] at missing
      exact tracks.kept ino missing

theorem Tracks.resize (tracks : Tracks last seen)
    (active : (seen.writer fh).IsActive) (size : Nat) :
    Tracks last (seen.resize (seen.writer fh).ino size) := by
  obtain ⟨entry, found, file, generation⟩ := tracks.found active
  apply tracks.rewrite active
  · exact tracks.linked.modify _ fun _ => .of_fields rfl
  · refine ⟨InodeEntry.snapshot { entry with size }, ?_⟩
    rw [InodeTable.fileState_modify_self found _ file, ← generation]
    rfl
  · intro other distinct
    exact InodeTable.fileState_modify_of_ne _ distinct

/-- The writer is settled: its file is clean, or gone. -/
theorem Tracks.settle {now : LastCommit} (tracks : Tracks last seen)
    (active : (seen.writer fh).IsActive) {state : CommitState}
    (terminal : state.isTerminal = true) {inodes : InodeTable}
    {hub : List (FileHandle × List BatchOp)} (linked : inodes.AllLinked)
    (here : inodes.fileState (seen.writer fh).ino =
      (now (seen.writer fh).ino).map (0, ·))
    (others : ∀ other, other ≠ (seen.writer fh).ino →
      inodes.fileState other = seen.inodes.fileState other ∧
        now other = last other) :
    Tracks now { seen.setState fh state with inodes, hub } := by
  have before : ∀ other,
      ((seen.setState fh state).writer other).IsActive →
      other ≠ fh ∧ (seen.writer other).IsActive ∧
        (seen.setState fh state).writer other = seen.writer other := by
    intro other activeNow
    by_cases same : other = fh
    · subst same
      simp [Writers.setState, Writers.setWriter, Writer.IsActive,
        terminal] at activeNow
    · have kept : (seen.setState fh state).writer other = seen.writer other :=
        Function.update_of_ne same _ _
      rw [kept] at activeNow
      exact ⟨same, activeNow, kept⟩
  have elsewhere : ∀ other, (seen.writer other).IsActive → other ≠ fh →
      (seen.writer other).ino ≠ (seen.writer fh).ino :=
    fun other activeOther distinct same =>
      distinct (tracks.alone other fh activeOther active same)
  constructor
  · exact linked
  · intro other activeNow
    exact tracks.allocated other (before other activeNow).2.1
  · intro other activeNow
    obtain ⟨distinct, activeOther, kept⟩ := before other activeNow
    obtain ⟨snapshot, isState⟩ := tracks.owns other activeOther
    refine ⟨snapshot, ?_⟩
    dsimp only
    rw [kept, (others _ (elsewhere other activeOther distinct)).1]
    exact isState
  · intro first second activeFirst activeSecond same
    obtain ⟨_, wasFirst, keptFirst⟩ := before first activeFirst
    obtain ⟨_, wasSecond, keptSecond⟩ := before second activeSecond
    dsimp only at same
    rw [keptFirst, keptSecond] at same
    exact tracks.alone first second wasFirst wasSecond same
  · intro other activeNow
    obtain ⟨distinct, activeOther, kept⟩ := before other activeNow
    dsimp only
    rw [kept, (others _ (elsewhere other activeOther distinct)).2]
    exact tracks.recorded other activeOther
  · intro ino fileState isState idle
    by_cases same : ino = (seen.writer fh).ino
    · rw [same, here] at isState
      obtain ⟨snapshot, isLast, rfl⟩ := Option.map_eq_some_iff.mp isState
      rw [same]
      exact ⟨rfl, isLast⟩
    · rw [(others ino same).1] at isState
      rw [(others ino same).2]
      refine tracks.clean ino fileState isState fun other activeOther => ?_
      by_cases isFh : other = fh
      · rw [isFh]
        exact fun equal => same equal.symm
      · have kept : (seen.setState fh state).writer other =
            seen.writer other := Function.update_of_ne isFh _ _
        rw [← kept]
        apply idle other
        dsimp only
        rw [kept]
        exact activeOther
  · intro ino missing
    by_cases same : ino = (seen.writer fh).ino
    · rw [same, here, Option.map_eq_none_iff] at missing
      rw [same]
      exact missing
    · rw [(others ino same).1] at missing
      rw [(others ino same).2]
      exact tracks.kept ino missing

theorem sameLinks_applyCommit (entry : InodeEntry) (hash : Hash)
    (size generation : Nat) (now : Time) :
    entry.SameLinks (entry.applyCommit hash size generation now) := by
  by_cases same : entry.dirtyGeneration = generation
  · rw [InodeEntry.applyCommit_of_eq same]
    exact .of_fields rfl
  · rw [InodeEntry.applyCommit_of_ne same]
    exact .of_fields rfl

/-- After a commit the file is clean, and this is its last commit. -/
theorem Tracks.commit (tracks : Tracks last seen)
    (active : (seen.writer fh).IsActive) (ops : List BatchOp)
    (info : XetFileInfo) (now : Time) :
    ∃ snapshot, (seen.commit (seen.writer fh).ino fh ops info now).inodes.fileState
          (seen.writer fh).ino = some (0, snapshot) ∧
      Tracks (Function.update last (seen.writer fh).ino (some snapshot))
        (seen.commit (seen.writer fh).ino fh ops info now) := by
  obtain ⟨entry, found, file, generation⟩ := tracks.found active
  have committed : (seen.commit (seen.writer fh).ino fh ops info
      now).inodes.fileState (seen.writer fh).ino =
        some (entry.applyCommit info.hash info.fileSize
          (seen.writer fh).dirtyGenerationAtOpen now).fileState := by
    apply InodeTable.fileState_modify_self found
    rw [(sameLinks_applyCommit _ _ _ _ _).kind]
    exact file
  have clean : (entry.applyCommit info.hash info.fileSize
      (seen.writer fh).dirtyGenerationAtOpen now).dirtyGeneration = 0 := by
    rw [InodeEntry.applyCommit_of_eq generation]
  rw [InodeEntry.fileState, clean] at committed
  refine ⟨_, committed, tracks.settle active rfl ?_ ?_ ?_⟩
  · exact tracks.linked.modify _ fun entry => sameLinks_applyCommit entry _ _ _ _
  · rw [Function.update_self]
    exact committed
  · intro other distinct
    exact ⟨InodeTable.fileState_modify_of_ne _ distinct,
      Function.update_of_ne distinct _ _⟩

/-- A failed commit brings the last one back. -/
theorem Tracks.revert (tracks : Tracks last seen)
    (active : (seen.writer fh).IsActive) :
    Tracks last (seen.revert (seen.writer fh).ino fh) := by
  obtain ⟨entry, found, file, _⟩ := tracks.found active
  have recorded := tracks.recorded fh active
  have reverted : ∀ inodes : InodeTable,
      inodes = (if (seen.writer fh).snapshot.existedBefore then
        seen.inodes.modify (seen.writer fh).ino
          (·.revert (seen.writer fh).snapshot)
        else seen.inodes.remove (seen.writer fh).ino) →
      inodes.AllLinked ∧ inodes.fileState (seen.writer fh).ino =
          (last (seen.writer fh).ino).map (0, ·) ∧
        ∀ other, other ≠ (seen.writer fh).ino →
          inodes.fileState other = seen.inodes.fileState other := by
    rintro inodes rfl
    split <;> rename_i existed
    · refine ⟨?_, ?_, ?_⟩
      · exact tracks.linked.modify _ fun _ => .of_fields rfl
      · rw [recorded, if_pos existed,
          InodeTable.fileState_modify_self found _ file]
        have same : (entry.revert (seen.writer fh).snapshot).snapshot =
            { (seen.writer fh).snapshot with existedBefore := true } := rfl
        rw [InodeEntry.fileState, same, ← existed]
        rfl
      · intro other distinct
        exact InodeTable.fileState_modify_of_ne _ distinct
    · obtain ⟨linked, gone, others⟩ := tracks.linked.remove found file
      refine ⟨linked, ?_, others⟩
      rw [recorded, if_neg existed]
      exact gone
  obtain ⟨linked, here, others⟩ := reverted _ rfl
  exact tracks.settle active rfl linked here fun other distinct =>
    ⟨others other distinct, rfl⟩

/-! ## New writers -/

/-- A new writer of a file that no other writer has. -/
theorem Tracks.addWriter (tracks : Tracks last seen) {after : Writers}
    {ino : Ino} {snapshot : InodeSnapshot} {generation : Nat}
    (new : after.writer seen.nextFileHandle =
      { ino
        state := .writing
        snapshot
        dirtyGenerationAtOpen := generation })
    (next : after.nextFileHandle = seen.nextFileHandle + 1)
    (kept : ∀ other, other ≠ seen.nextFileHandle →
      (after.writer other).IsActive →
        after.writer other = seen.writer other ∧
          (seen.writer other).ino ≠ ino)
    (stays : ∀ other, (seen.writer other).IsActive →
      (seen.writer other).ino ≠ ino →
        after.writer other = seen.writer other)
    (linked : after.inodes.AllLinked)
    (here : ∃ state, after.inodes.fileState ino = some (generation, state))
    (others : ∀ other, other ≠ ino →
      after.inodes.fileState other = seen.inodes.fileState other)
    (recorded : last ino =
      if snapshot.existedBefore then some snapshot else none) :
    Tracks last after := by
  have before : ∀ other, (after.writer other).IsActive →
      other = seen.nextFileHandle ∨ other ≠ seen.nextFileHandle ∧
        after.writer other = seen.writer other ∧
        (seen.writer other).IsActive ∧ (seen.writer other).ino ≠ ino := by
    intro other active
    by_cases isNew : other = seen.nextFileHandle
    · exact Or.inl isNew
    · obtain ⟨same, elsewhere⟩ := kept other isNew active
      exact Or.inr ⟨isNew, same, same ▸ active, elsewhere⟩
  constructor
  · exact linked
  · intro other active
    rw [next]
    rcases before other active with rfl | ⟨_, _, was, _⟩
    · exact Nat.lt_succ_self _
    · exact Nat.lt_succ_of_lt (tracks.allocated other was)
  · intro other active
    rcases before other active with rfl | ⟨_, same, was, elsewhere⟩
    · obtain ⟨state, isState⟩ := here
      exact ⟨state, by rw [new]; exact isState⟩
    · obtain ⟨state, isState⟩ := tracks.owns other was
      exact ⟨state, by rw [same, others _ elsewhere]; exact isState⟩
  · intro first second activeFirst activeSecond same
    rcases before first activeFirst with rfl |
      ⟨_, sameFirst, wasFirst, elsewhereFirst⟩
    · rcases before second activeSecond with rfl |
        ⟨_, sameSecond, _, elsewhereSecond⟩
      · rfl
      · rw [new, sameSecond] at same
        exact absurd same.symm elsewhereSecond
    · rcases before second activeSecond with rfl |
        ⟨_, sameSecond, wasSecond, _⟩
      · rw [new, sameFirst] at same
        exact absurd same elsewhereFirst
      · rw [sameFirst, sameSecond] at same
        exact tracks.alone first second wasFirst wasSecond same
  · intro other active
    rcases before other active with rfl | ⟨_, same, was, _⟩
    · rw [new]
      exact recorded
    · rw [same]
      exact tracks.recorded other was
  · intro file state isState idle
    have newActive : (after.writer seen.nextFileHandle).IsActive := by
      rw [new]
      rfl
    have distinct : file ≠ ino := by
      rintro rfl
      exact idle _ newActive (by rw [new])
    rw [others file distinct] at isState
    refine tracks.clean file state isState fun other was sameFile => ?_
    have same := stays other was (by rw [sameFile]; exact distinct)
    exact idle other (same ▸ was) (by rw [same]; exact sameFile)
  · intro file missing
    by_cases same : file = ino
    · obtain ⟨state, isState⟩ := here
      rw [same, isState] at missing
      cases missing
    · rw [others file same] at missing
      exact tracks.kept file missing

theorem Tracks.created (tracks : Tracks last seen) {ino generation : Nat}
    {inodes : InodeTable} (newFile : NewFile seen.inodes ino generation inodes)
    {snapshot : InodeSnapshot} (isNew : snapshot.existedBefore = false) :
    Tracks last ((Writers.addWriter { seen with inodes } ino snapshot
      generation).openHandle ino seen.nextFileHandle) := by
  obtain ⟨linked, same⟩ := linked_bumpOpenHandles newFile.linked ino
  have elsewhere : ∀ other, (seen.writer other).IsActive →
      (seen.writer other).ino ≠ ino := by
    rintro other active rfl
    obtain ⟨state, isState⟩ := tracks.owns other active
    rw [newFile.fresh] at isState
    cases isState
  apply tracks.addWriter
  · exact Function.update_self _ _ _
  · rfl
  · intro other old active
    have kept : ((Writers.addWriter { seen with inodes } ino snapshot
        generation).openHandle ino seen.nextFileHandle).writer other =
          seen.writer other := Function.update_of_ne old _ _
    rw [kept] at active
    exact ⟨kept, elsewhere other active⟩
  · intro other active _
    exact Function.update_of_ne (Nat.ne_of_lt (tracks.allocated other active))
      _ _
  · exact linked
  · obtain ⟨state, isState⟩ := newFile.here
    exact ⟨state, (same ino).trans isState⟩
  · intro other distinct
    exact (same other).trans (newFile.others other distinct)
  · rw [if_neg (by simp [isNew])]
    exact tracks.kept ino newFile.fresh

theorem writer_supersede_of_ne {active : Option FileHandle}
    {other : FileHandle} (distinct : active ≠ some other) :
    (seen.supersede active).writer other = seen.writer other := by
  cases active with
  | none => rfl
  | some old =>
      exact Function.update_of_ne (fun same => distinct (by rw [same])) _ _

theorem not_active_supersede (old : FileHandle) :
    ¬ ((seen.supersede (some old)).writer old).IsActive := by
  simp [Writers.supersede, Writers.setState, Writers.setWriter,
    Writer.IsActive]

theorem Tracks.opened (tracks : Tracks last seen) (held : seen.Held)
    {ino : Ino} {active : Option FileHandle} {snapshot : InodeSnapshot}
    (file : ∀ entry, seen.inodes.get ino = some entry → entry.kind = .file)
    (finds : seen.Finds ino active)
    (inherits : seen.Inherits ino snapshot active) :
    Tracks last ((((seen.addWriter ino snapshot 0).supersede active).markDirty
      ino seen.nextFileHandle).openHandle ino seen.nextFileHandle) := by
  have source : ∃ entry, seen.inodes.get ino = some entry ∧
      last ino = (if snapshot.existedBefore then some snapshot else none) ∧
      ∀ other, (seen.writer other).IsActive → (seen.writer other).ino = ino →
        active = some other := by
    cases active with
    | some old =>
        obtain ⟨_, isIno, isActive, _⟩ := finds
        obtain ⟨entry, found, _⟩ := tracks.found isActive
        have recorded := tracks.recorded old isActive
        rw [← inherits] at recorded
        rw [isIno] at found recorded
        refine ⟨entry, found, recorded, fun other activeOther same => ?_⟩
        rw [tracks.alone old other isActive activeOther (isIno.trans same.symm)]
    | none =>
        obtain ⟨entry, found, rfl⟩ := inherits
        have idle : ∀ other, (seen.writer other).IsActive →
            (seen.writer other).ino ≠ ino := by
          rintro other activeOther rfl
          obtain ⟨own, foundOwn, _, generation⟩ := tracks.found activeOther
          refine finds entry found other
            ⟨held other activeOther, rfl, activeOther, ?_⟩
          intro also foundAlso
          obtain rfl := Option.some.inj (foundOwn.symm.trans foundAlso)
          exact generation.symm
        obtain ⟨_, isLast⟩ := tracks.clean ino _
          (InodeTable.fileState_of_get found (file entry found)) idle
        exact ⟨entry, found, isLast, fun other activeOther same =>
          absurd same (idle other activeOther)⟩
  obtain ⟨entry, found, recorded, only⟩ := source
  have isFile := file entry found
  have notNew : active ≠ some seen.nextFileHandle := by
    rintro rfl
    exact absurd (tracks.allocated _ finds.active) (Nat.lt_irrefl _)
  have untouched : ∀ other, other ≠ seen.nextFileHandle →
      ((((seen.addWriter ino snapshot 0).supersede active).markDirty ino
        seen.nextFileHandle).openHandle ino seen.nextFileHandle).writer other =
          ((seen.addWriter ino snapshot 0).supersede active).writer other :=
    fun other old => Function.update_of_ne old _ _
  have survives : ∀ other, other ≠ seen.nextFileHandle →
      active ≠ some other →
      ((seen.addWriter ino snapshot 0).supersede active).writer other =
        seen.writer other := by
    intro other old distinct
    rw [writer_supersede_of_ne distinct]
    exact Function.update_of_ne old _ _
  have inodes : ((seen.addWriter ino snapshot 0).supersede active).inodes =
      seen.inodes := by
    cases active <;> rfl
  have dirty : (seen.inodes.modify ino (·.startRewrite)).get ino =
      some entry.startRewrite := InodeTable.get_modify_of_found found _
  obtain ⟨linked, same⟩ := linked_bumpOpenHandles
    (tracks.linked.modify ino fun entry =>
      (.of_fields rfl : entry.SameLinks entry.startRewrite)) ino
  have table : ((((seen.addWriter ino snapshot 0).supersede active).markDirty
      ino seen.nextFileHandle).openHandle ino seen.nextFileHandle).inodes =
        (seen.inodes.modify ino (·.startRewrite)).bumpOpenHandles ino := by
    simp only [Writers.openHandle, Writers.markDirty, inodes]
  apply @Tracks.addWriter _ _ tracks _ ino snapshot
    entry.startRewrite.dirtyGeneration
  · simp only [Writers.openHandle, Writers.markDirty, Writers.setWriter,
      Function.update_self, inodes, dirty, writer_supersede_of_ne notNew]
    simp [Writers.addWriter, Writers.setWriter]
  · cases active <;> rfl
  · intro other old isActive
    rw [untouched other old] at isActive ⊢
    have distinct : active ≠ some other := by
      rintro rfl
      exact not_active_supersede other isActive
    rw [survives other old distinct] at isActive ⊢
    exact ⟨rfl, fun isIno => distinct (only other isActive isIno)⟩
  · intro other isActive elsewhere
    have old : other ≠ seen.nextFileHandle :=
      Nat.ne_of_lt (tracks.allocated other isActive)
    have distinct : active ≠ some other := by
      rintro rfl
      exact elsewhere finds.isIno
    rw [untouched other old, survives other old distinct]
  · rw [table]
    exact linked
  · rw [table]
    refine ⟨entry.startRewrite.snapshot, ?_⟩
    rw [same, InodeTable.fileState_of_get dirty isFile]
    rfl
  · intro other distinct
    rw [table, same]
    exact InodeTable.fileState_modify_of_ne _ distinct
  · exact recorded

/-! ## Calls -/

/-- The last commits after a call: the file whose batch the Hub took is as the
call leaves it. -/
def recordCommit (before after : Writers) (last : LastCommit) : LastCommit :=
  match after.hub.drop before.hub.length with
  | [] => last
  | (fh, _) :: _ =>
      Function.update last (after.writer fh).ino
        ((after.inodes.fileState (after.writer fh).ino).map (·.2))

theorem recordCommit_same {after : Writers} (same : after.hub = seen.hub) :
    recordCommit seen after last = last := by
  simp [recordCommit, same]

theorem recordCommit_commit {before : Writers} (ops : List BatchOp)
    (info : XetFileInfo) (now : Time) {snapshot : InodeSnapshot}
    (hub : before.hub = seen.hub)
    (committed : (seen.commit (seen.writer fh).ino fh ops info
      now).inodes.fileState (seen.writer fh).ino = some (0, snapshot)) :
    recordCommit before (seen.commit (seen.writer fh).ino fh ops info now)
        last =
      Function.update last (seen.writer fh).ino (some snapshot) := by
  have sent : (seen.commit (seen.writer fh).ino fh ops info now).hub =
      before.hub ++ [(fh, ops)] := by
    rw [hub]
    rfl
  have isIno : ((seen.commit (seen.writer fh).ino fh ops info now).writer
      fh).ino = (seen.writer fh).ino := by
    simp [Writers.commit, Writers.setState, Writers.setWriter,
      Writers.applyCommit, Writers.send]
  simp only [recordCommit, sent, List.drop_left, isIno, committed,
    Option.map_some]

theorem recordCommit_dropHandle {before : Writers}
    (linked : seen.inodes.AllLinked) (ino : Ino) :
    recordCommit before (seen.dropHandle ino) last =
      recordCommit before seen last := by
  obtain ⟨_, same⟩ := linked_dropOpenHandles linked ino
  simp only [dropHandle_eq linked, recordCommit, same]

/-- What every call of a chain keeps. -/
structure Traced (last : LastCommit) (seen : Writers) : Prop where
  tracks : Tracks last seen
  held : seen.Held

theorem held_of_active {after : Writers} (held : seen.Held)
    (active : ∀ other, (after.writer other).IsActive →
      (seen.writer other).IsActive)
    (openFiles : ∀ other, (after.writer other).IsActive →
      other ∈ seen.openFiles → other ∈ after.openFiles) : after.Held :=
  fun other isActive =>
    openFiles other isActive (held other (active other isActive))

theorem active_of_setState {other : FileHandle} {state : CommitState}
    (active : (seen.writer fh).IsActive)
    (activeNow : ((seen.setState fh state).writer other).IsActive) :
    (seen.writer other).IsActive := by
  by_cases here : other = fh
  · rw [here]
    exact active
  · have same : (seen.setState fh state).writer other = seen.writer other :=
      Function.update_of_ne here _ _
    exact same ▸ activeNow

/-- A call that commits nothing. -/
theorem Traced.uncommitted {after : Writers} (traced : Traced last after)
    (same : after.hub = seen.hub) :
    Traced (recordCommit seen after last) after := by
  rw [recordCommit_same same]
  exact traced

theorem Traced.flushed (traced : Traced last seen) {after : Writers}
    (flushes : Flushes seen fh after) :
    Traced (recordCommit seen after last) after := by
  cases flushes with
  | same => exact traced.uncommitted rfl
  | changed state active isOpen =>
      refine Traced.uncommitted ⟨?_, ?_⟩ rfl
      · exact traced.tracks.alike
          (alike_setState traced.tracks.linked active isOpen)
      · exact held_of_active traced.held
          (fun other => active_of_setState active) fun _ _ member => member
  | done ops info now active =>
      obtain ⟨snapshot, committed, tracks⟩ :=
        traced.tracks.commit active ops info now
      rw [recordCommit_commit ops info now rfl committed]
      refine ⟨tracks, ?_⟩
      exact held_of_active traced.held
        (fun other activeNow => active_of_setState active activeNow)
        fun _ _ member => member

theorem Traced.written (traced : Traced last seen) {after : Writers}
    (writes : after = seen ∨ (seen.writer fh).IsActive ∧
      ∃ size, after = seen.resize (seen.writer fh).ino size) :
    Traced (recordCommit seen after last) after := by
  obtain rfl | ⟨active, size, rfl⟩ := writes
  · exact traced.uncommitted rfl
  · exact Traced.uncommitted
      ⟨traced.tracks.resize active size, traced.held⟩ rfl

/-- The handle is closed, and its writer has nothing left to commit. -/
theorem Traced.closed (traced : Traced last seen) {now : LastCommit}
    {settled : Writers} (tracks : Tracks now settled)
    (openFiles : settled.openFiles = (seen.closeHandle fh).openFiles)
    (idle : ¬ (settled.writer fh).IsActive)
    (active : ∀ other, (settled.writer other).IsActive →
      (seen.writer other).IsActive) (ino : Ino) :
    Traced now (settled.dropHandle ino) := by
  refine ⟨tracks.dropHandle ino, fun other isActive => ?_⟩
  change other ∈ settled.openFiles
  rw [openFiles]
  refine List.mem_filter.mpr ⟨traced.held other (active other isActive), ?_⟩
  have distinct : other ≠ fh := by
    rintro rfl
    exact idle isActive
  simpa using distinct

theorem Traced.released (traced : Traced last seen) {after : Writers}
    (releases : Releases seen fh after) :
    Traced (recordCommit seen after last) after := by
  obtain rfl | ⟨settled, settles, rfl⟩ := releases
  · exact traced.uncommitted rfl
  have closed := traced.tracks.closeHandle fh
  cases settles with
  | settled idle =>
      apply Traced.uncommitted
      · exact traced.closed closed rfl idle (fun _ active => active) _
      · rfl
  | done ops info now active =>
      obtain ⟨snapshot, committed, tracks⟩ := closed.commit active ops info now
      have record := @recordCommit_commit last (seen.closeHandle fh) fh seen
        ops info now snapshot rfl committed
      rw [recordCommit_dropHandle tracks.linked, record]
      exact traced.closed tracks rfl
        (by simp [Writers.commit, Writers.setState, Writers.setWriter,
          Writer.IsActive])
        (fun other => active_of_setState active) _
  | reverted active =>
      apply Traced.uncommitted
      · exact traced.closed (closed.revert active) rfl
          (by simp [Writers.revert, Writers.setState, Writers.setWriter,
            Writer.IsActive])
          (fun other => active_of_setState active) _
      · rfl

theorem Traced.opens (traced : Traced last seen) {ino : Ino}
    {after : Writers}
    (opens : after = seen ∨ Opens seen ino after ∧
      ∀ entry, seen.inodes.get ino = some entry → entry.kind = .file) :
    Traced (recordCommit seen after last) after := by
  obtain rfl | ⟨opens, file⟩ := opens
  · exact traced.uncommitted rfl
  cases opens with
  | same => exact traced.uncommitted rfl
  | opened active snapshot finds inherits =>
      apply Traced.uncommitted
      · refine ⟨traced.tracks.opened traced.held file finds inherits, ?_⟩
        intro other isActive
        have openFiles : ((((seen.addWriter ino snapshot 0).supersede
            active).markDirty ino seen.nextFileHandle).openHandle ino
              seen.nextFileHandle).openFiles =
                seen.nextFileHandle :: seen.openFiles := by
          cases active <;> rfl
        rw [openFiles, List.mem_cons]
        by_cases isNew : other = seen.nextFileHandle
        · exact Or.inl isNew
        · refine Or.inr (traced.held other ?_)
          have distinct : active ≠ some other := by
            rintro rfl
            apply not_active_supersede other
            exact (congrArg Writer.IsActive
              (Function.update_of_ne isNew _ _)).mp isActive
          have same : ((((seen.addWriter ino snapshot 0).supersede
              active).markDirty ino seen.nextFileHandle).openHandle ino
                seen.nextFileHandle).writer other = seen.writer other := by
            refine (Function.update_of_ne isNew _ _).trans ?_
            rw [writer_supersede_of_ne distinct]
            exact Function.update_of_ne isNew _ _
          exact same ▸ isActive
      · cases active <;> rfl

theorem Traced.creates (traced : Traced last seen) {after : Writers}
    (creates : Creates seen after) :
    Traced (recordCommit seen after last) after := by
  cases creates with
  | same => exact traced.uncommitted rfl
  | @dropped ino generation inodes newFile =>
      obtain ⟨snapshot, isState⟩ := newFile.here
      obtain ⟨entry, found, file, _⟩ :=
        InodeTable.fileState_eq_some.mp isState
      obtain ⟨linked, gone, others⟩ := newFile.linked.remove found file
      refine Traced.uncommitted ⟨?_, traced.held⟩ rfl
      apply traced.tracks.alike
      apply alike_inodes linked
      intro other
      by_cases here : other = ino
      · rw [here, gone, newFile.fresh]
      · rw [others other here, newFile.others other here]
  | created snapshot newFile isNew =>
      refine Traced.uncommitted ⟨traced.tracks.created newFile isNew, ?_⟩ rfl
      intro other isActive
      apply List.mem_cons.mpr
      by_cases here : other = seen.nextFileHandle
      · exact Or.inl here
      · refine Or.inr (traced.held other ?_)
        exact (congrArg Writer.IsActive
          (Function.update_of_ne here _ _)).mp isActive

end

/-! ## Chains -/

/-- The calls of a chain of writers. -/
def Call.IsChained : Call → Prop
  | .create .. | .openTruncate .. | .write .. | .flush .. | .release .. => True
  | _ => False

theorem Traced.program {last : LastCommit} {seen : Writers}
    (traced : Traced last seen) {call : Call} (chained : call.IsChained)
    (me : CallId) :
    Ends (program me call) seen fun _ after =>
      Traced (recordCommit seen after last) after := by
  have linked := traced.tracks.linked
  cases call with
  | write fh offset data =>
      exact write_ends.mono fun _ _ writes => traced.written writes
  | flush fh pid =>
      exact (flush_ends linked (traced.tracks.owns fh)).mono
        fun _ _ flushes => traced.flushed flushes
  | release fh =>
      exact (release_ends linked (traced.tracks.owns fh)).mono
        fun _ _ releases => traced.released releases
  | openTruncate ino pid =>
      exact openTruncate_ends.mono fun _ _ opens => traced.opens opens
  | create parent name mode uid gid pid =>
      exact (create_ends linked name.2).mono
        fun _ _ creates => traced.creates creates
  | link ino => cases chained
  | unlink parent name => cases chained
  | drain fh => cases chained
  | awaitCommit ino => cases chained

/-- No file is dirty, and no writer has anything to commit. -/
structure StreamingFs.Loaded (fs : StreamingFs) : Prop where
  linked : fs.inodes.AllLinked
  clean : ∀ ino state, fs.inodes.fileState ino = some state → state.1 = 0
  idle : ∀ fh, ¬ (fs.writers.writer fh).IsActive

/-- The files as they were loaded. -/
def StreamingFs.lastLoaded (fs : StreamingFs) : LastCommit :=
  fun ino => (fs.inodes.fileState ino).map (·.2)

/-- Calls one after the other, each with the workers beside it, and the last
commit of every file. -/
inductive Chain (store : ContentStore) (start : StreamingFs) :
    LastCommit → StreamingFs → Prop
  | start : Chain store start start.lastLoaded start
  | call {last : LastCommit} {fs next : StreamingFs} {me : CallId}
      {call : Call} {reply : Reply} :
      Chain store start last fs → call.IsChained →
      (program me call).Runs
        (fun state after => ∃ worked, work store state worked = some after)
        fs reply next →
      Chain store start (recordCommit fs.writers next.writers last) next

theorem Chain.traced {store : ContentStore} {start fs : StreamingFs}
    {last : LastCommit} (chain : Chain store start last fs)
    (loaded : start.Loaded) : Traced last fs.writers := by
  induction chain with
  | start =>
      refine ⟨⟨loaded.linked, ?_, ?_, ?_, ?_, ?_, ?_⟩, ?_⟩
      · exact fun fh active => absurd active (loaded.idle fh)
      · exact fun fh active => absurd active (loaded.idle fh)
      · exact fun fh _ active => absurd active (loaded.idle fh)
      · exact fun fh active => absurd active (loaded.idle fh)
      · intro ino state isState _
        refine ⟨loaded.clean ino state isState, ?_⟩
        exact congrArg (Option.map (·.2)) isState
      · intro ino missing
        exact congrArg (Option.map (·.2)) missing
      · exact fun fh active => absurd active (loaded.idle fh)
  | call _ chained runs ih =>
      apply runs.ensured _ (ih.program chained _)
      rintro state after ⟨worked, stepped⟩
      exact StreamingFs.writers_work stepped

/-- Once no handle of a file is open, the file is clean and as it was when it
was last committed or loaded; a new file that was never committed is gone. -/
theorem restores_last_commit {store : ContentStore} {start fs : StreamingFs}
    (loaded : start.Loaded) {last : LastCommit}
    (chain : Chain store start last fs) {ino : Ino}
    (released : ∀ fh ∈ fs.openFiles, (fs.channels fh).ino ≠ ino) :
    fs.inodes.fileState ino = (last ino).map (0, ·) := by
  obtain ⟨tracks, held⟩ := chain.traced loaded
  cases isState : fs.inodes.fileState ino with
  | none =>
      rw [tracks.kept ino isState]
      rfl
  | some state =>
      have idle : ∀ fh, (fs.writers.writer fh).IsActive →
          (fs.writers.writer fh).ino ≠ ino :=
        fun fh active => released fh (held fh active)
      obtain ⟨clean, isLast⟩ := tracks.clean ino state isState idle
      rw [isLast, Option.map_some, ← clean]

/-- A mount that has listed one file. -/
def oneFile : StreamingFs :=
  { StreamingFs.empty with
    inodes := (InodeTable.new.insert rootInode ['a'] (childPath [] ['a']) .file
      5 3 (some ['h']) 420 0 0 0).2 }

theorem loaded_oneFile : oneFile.Loaded := by
  have linked : InodeTable.new.AllLinked := by
    refine ⟨InodeTable.wellFormed_new, fun found => ?_⟩
    rw [(InodeTable.eq_root_of_get_new found).2]
    decide
  obtain ⟨inserted, isInserted, linkedThen, _, _, _, others⟩ :=
    @InodeTable.AllLinked.insert _ linked rootInode ['a'] _ rfl rfl (by decide)
      rfl 5 3 (some ['h']) 420 0 0 0
  have table : oneFile.inodes = inserted := congrArg Prod.snd isInserted
  refine ⟨table ▸ linkedThen, ?_, ?_⟩
  · intro ino state isState
    by_cases here : ino = 2
    · subst here
      obtain rfl := Option.some.inj isState
      rfl
    · rw [table, others ino here] at isState
      obtain ⟨entry, found, file, _⟩ :=
        InodeTable.fileState_eq_some.mp isState
      rw [(InodeTable.eq_root_of_get_new found).2] at file
      cases file
  · intro fh active
    cases active

/-- The file is opened for writing, and its upload fails at the release. -/
def failedRewrite : Option (Reply × StreamingFs) :=
  (follow (work .spelled) (.replicate 11 (.inl .success))
      (program 0 (.openTruncate 2 none)) oneFile).bind fun opened =>
    follow (work .spelled)
      (.replicate 12 (.inl .success) ++
        [.inr (.receive 0), .inr (.process 0 (some .eio))] ++
        .replicate 9 (.inl .success))
      (program 1 (.release 0)) opened.2

theorem restores_last_commit_oneFile :
    ∃ last fs, Chain .spelled oneFile last fs ∧ fs.openFiles = [] ∧
      fs.inodes.fileState 2 = (last 2).map (0, ·) := by
  have closed : failedRewrite.map (·.2.openFiles) = some [] := by decide
  obtain ⟨⟨reply, final⟩, ran, noneOpen⟩ := Option.map_eq_some_iff.mp closed
  obtain ⟨opened, isOpened, isReleased⟩ := Option.bind_eq_some_iff.mp ran
  have first : Chain .spelled oneFile _ opened.2 :=
    @Chain.call _ _ _ _ _ 0 (.openTruncate 2 none) _ .start trivial
      (runs_of_follow isOpened)
  have second : Chain .spelled oneFile _ final :=
    @Chain.call _ _ _ _ _ 1 (.release 0) _ first trivial
      (runs_of_follow isReleased)
  refine ⟨_, final, second, noneOpen,
    restores_last_commit loaded_oneFile second ?_⟩
  intro fh member
  rw [show final.openFiles = [] from noneOpen] at member
  cases member

end HfMount.Streaming
