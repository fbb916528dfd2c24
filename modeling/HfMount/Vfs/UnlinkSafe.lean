import HfMount.Vfs.NamedFiles
import HfMount.Vfs.UnlinkCalls

/-!
# Unlinks remove what they have examined

As long as no other step takes the name away or moves the path between the
examination and the local removal, the delete is for the path of the examined
inode, the name that goes is its name, and no inode stays without links and
handles.  A rename onto the name in between breaks all three.
-/

namespace HfMount.Vfs

open SlashPath Inode Transition

namespace Unlinks

/-! ## The local removal -/

section

variable {table : InodeTable} {info : Examined}

/-- The examined inode still has the name. -/
abbrev Names (table : InodeTable) (info : Examined) : Prop :=
  table.NamesFile info.parent info.name info.ino

/-- The one name goes and every other stays. -/
def RemovesOnly (before after : InodeTable) (info : Examined) : Prop :=
  ∀ dir name ino, after.HasChild dir name ino ↔
    before.HasChild dir name ino ∧
      ¬ (dir = info.parent ∧ name = info.name ∧ ino = info.ino)

theorem sameLinks_touch (entry : InodeEntry) (now : Time) :
    entry.SameLinks { entry with
      mtime := now
      ctime := now } :=
  .of_fields rfl

/-- The steps of the local removal of a file that has the name. -/
structure Removal (table : InodeTable) (info : Examined) (now : Time)
    (touched : InodeTable) : Prop where
  pruned : table.Pruned (table.unlinkOne info.parent info.name now).2
    (· = info.ino)
  order : touched.InOrder
  isTouched : touched =
    (table.unlinkOne info.parent info.name now).2.touchParent info.parent now
  result : unlinkLocal table info now =
    if !touched.hasOpenHandles info.ino then touched.removeOrphan info.ino
    else touched

theorem removal (order : table.InOrder) (names : Names table info)
    (now : Time) : ∃ touched, Removal table info now touched := by
  obtain ⟨entry, looked, _, key, file, _⟩ := names.lookup order.wf
  have pruned := InodeTable.pruned_unlinkOne order.wf looked file now
  rw [key] at pruned
  have unlinked := order.unlinkOne (fun other lookedOther => by
    obtain rfl := Option.some.inj (looked.symm.trans lookedOther)
    exact file) now
  obtain ⟨_, _, _, _, _, _, result⟩ :=
    InodeTable.unlinkOne_eq order.wf looked file now
  refine ⟨_, pruned, unlinked.update info.parent fun entry =>
    sameLinks_touch entry now, rfl, ?_⟩
  unfold unlinkLocal
  rw [result]
  rfl

variable {now : Time} {touched : InodeTable}

theorem Removal.inOrder (removal : Removal table info now touched) :
    (unlinkLocal table info now).InOrder := by
  rw [removal.result]
  split
  · exact removal.order.removeOrphan info.ino
  · exact removal.order

theorem Removal.hasChild_iff (removal : Removal table info now touched)
    {dir ino : Ino} {name : Name} :
    (unlinkLocal table info now).HasChild dir name ino ↔
      table.HasChild dir name ino ∧ ino ≠ info.ino := by
  have unlinked : touched.HasChild dir name ino ↔
      table.HasChild dir name ino ∧ ino ≠ info.ino := by
    rw [removal.isTouched,
      InodeTable.hasChild_of_similar (InodeTable.similar_touchParent _ _ _)]
    exact removal.pruned.hasChild_iff
  rw [removal.result]
  split
  · rcases InodeTable.removeOrphan_cases removal.order info.ino with
      ⟨same, _⟩ | ⟨_, _, _, _, pruned⟩
    · rw [same]
      exact unlinked
    · rw [pruned.hasChild_iff, unlinked]
      simp
  · exact unlinked

/-- Files with other names keep them and their paths. -/
theorem Removal.namesFile (removal : Removal table info now touched)
    {dir ino : Ino} {name : Name} (names : table.NamesFile dir name ino)
    (other : ino ≠ info.ino) :
    (unlinkLocal table info now).NamesFile dir name ino ∧
      ∀ path, table.HasPath ino path →
        (unlinkLocal table info now).HasPath ino path := by
  have same : ∀ entry : InodeEntry, entry.SameLinks { entry with
      mtime := now
      ctime := now } := fun entry => sameLinks_touch entry now
  have kept : touched.NamesFile dir name ino := by
    rw [removal.isTouched]
    exact (removal.pruned.namesFile names other).modify info.parent same
  have path : ∀ path, table.HasPath ino path → touched.HasPath ino path := by
    intro path at_path
    rw [removal.isTouched]
    exact (removal.pruned.hasPath at_path other).modify info.parent same
  rw [removal.result]
  split
  · have removed := kept.removeOrphan removal.order info.ino
    exact ⟨removed.1, fun _ at_path => removed.2 _ (path _ at_path)⟩
  · exact ⟨kept, path⟩

/-- The examined inode stays only while it is open. -/
theorem Removal.inherits (removal : Removal table info now touched)
    (order : table.InOrder) (names : Names table info) :
    table.InheritsOrphans (unlinkLocal table info now) := by
  obtain ⟨entry, looked, _, _, file, _⟩ := names.lookup order.wf
  have unlinkedOrder := order.unlinkOne (fun other lookedOther => by
    obtain rfl := Option.some.inj (looked.symm.trans lookedOther)
    exact file) now
  have final : ∀ ino other, (unlinkLocal table info now).get ino = some other →
      other.nlink = 0 → 0 < other.eviction.openHandles ∨
        (ino ≠ info.ino ∧ ∃ middle, touched.get ino = some middle ∧
          middle.nlink = 0 ∧ middle.eviction.openHandles = 0) := by
    intro ino other found noLinks
    rw [removal.result] at found
    split at found <;> rename_i closed
    · by_cases isIno : ino = info.ino
      · subst isIno
        have links := InodeTable.links_of_removeOrphan removal.order found
        omega
      · rcases InodeTable.inherits_removeOrphan removal.order info.ino ino other
          found noLinks with opened | before
        · exact Or.inl opened
        · exact Or.inr ⟨isIno, before⟩
    · rcases Nat.eq_zero_or_pos other.eviction.openHandles with none | opened
      · refine Or.inr ⟨?_, other, found, noLinks, none⟩
        rintro rfl
        simp [InodeTable.hasOpenHandles, found, InodeEntry.hasOpenHandles,
          none] at closed
      · exact Or.inl opened
  intro ino other found noLinks
  rcases final ino other found noLinks with opened |
    ⟨notIno, middle, foundMiddle, middleLinks, closed⟩
  · exact Or.inl opened
  rw [removal.isTouched] at foundMiddle
  rcases InodeTable.inherits_modify _ info.parent
    (fun entry => sameLinks_touch entry now) (fun _ => Nat.le_refl _) ino middle
      foundMiddle middleLinks with opened |
        ⟨unlinked, foundUnlinked, unlinkedLinks, unlinkedClosed⟩
  · omega
  rcases removal.pruned.orphan_source unlinkedOrder
    (InodeTable.keepsHandles_unlinkOne _ _ _ _) notIno foundUnlinked
      unlinkedLinks with opened | before
  · omega
  · exact Or.inr before

theorem removesOnly (order : table.InOrder) (names : Names table info)
    (now : Time) : RemovesOnly table (unlinkLocal table info now) info := by
  obtain ⟨touched, removal⟩ := removal order names now
  intro dir name ino
  rw [removal.hasChild_iff]
  apply and_congr_right
  intro child
  constructor
  · intro other same
    exact other same.2.2
  · intro other isIno
    subst isIno
    obtain ⟨sameDir, sameName⟩ := names.unique order.wf child
    exact other ⟨sameDir, sameName, rfl⟩

end

/-! ## The invariant -/

/-- An inode without links is open, or a release will take it out. -/
def OrphansOwned (state : Unlinks) : Prop :=
  ∀ ino entry, state.table.get ino = some entry → entry.nlink = 0 →
    0 < entry.eviction.openHandles ∨ ino ∈ state.closing ∨ ino ∈ state.reaping

/-- A streaming unlink holds the lock of its inode. -/
def HoldsLocks (state : Unlinks) : Prop :=
  state.advancedWrites = false → ∀ id call, state.calls[id]? = some call →
    ∀ ino ∈ call.locks, state.holder ino = some id

structure Sound (state : Unlinks) : Prop where
  order : state.table.InOrder
  names : ∀ call ∈ state.calls, ∀ info ∈ call.pending, Names state.table info
  path : ∀ call ∈ state.calls, ∀ info ∈ call.unsent,
    state.table.HasPath info.ino info.fullPath
  orphans : state.OrphansOwned
  locks : state.HoldsLocks

theorem pending_of_unsent {call : UnlinkCall} {info : Examined}
    (unsent : info ∈ call.unsent) : info ∈ call.pending := by
  cases call <;> simp_all [UnlinkCall.unsent, UnlinkCall.pending]

theorem locks_of_pending {call : UnlinkCall} {info : Examined}
    (pending : info ∈ call.pending) : info.ino ∈ call.locks := by
  cases call <;> simp_all [UnlinkCall.pending, UnlinkCall.locks]

/-- A call of the list is the one that was set, or has another number. -/
theorem mem_set {calls : List UnlinkCall} {id : Nat} {call other : UnlinkCall}
    (member : other ∈ calls.set id call) :
    other = call ∨ ∃ index, index ≠ id ∧ calls[index]? = some other := by
  obtain ⟨index, found⟩ := List.mem_iff_getElem?.mp member
  rw [List.getElem?_set] at found
  split at found
  · split at found
    · exact Or.inl (Option.some.inj found).symm
    · cases found
  · rename_i different
    exact Or.inr ⟨index, fun same => different same.symm, found⟩

theorem OrphansOwned.inherit {before after : Unlinks}
    (owned : before.OrphansOwned)
    (inherits : before.table.InheritsOrphans after.table)
    (closing : after.closing = before.closing)
    (reaping : after.reaping = before.reaping) : after.OrphansOwned := by
  intro ino other found noLinks
  rcases inherits ino other found noLinks with opened |
    ⟨entry, foundEntry, links, closed⟩
  · exact Or.inl opened
  · right
    rw [closing, reaping]
    apply (owned ino entry foundEntry links).resolve_left
    omega

section

variable {state : Unlinks}

theorem Sound.setTable (sound : state.Sound) {table : InodeTable}
    (order : table.InOrder)
    (names : ∀ call ∈ state.calls, ∀ info ∈ call.pending, Names table info)
    (path : ∀ call ∈ state.calls, ∀ info ∈ call.unsent,
      table.HasPath info.ino info.fullPath)
    (inherits : state.table.InheritsOrphans table) :
    { state with table }.Sound :=
  ⟨order, names, path, sound.orphans.inherit inherits rfl rfl, sound.locks⟩

/-- The call goes on with what it holds. -/
theorem Sound.setCall (sound : state.Sound) {id : Nat} {call : UnlinkCall}
    (names : ∀ info ∈ call.pending, Names state.table info)
    (path : ∀ info ∈ call.unsent, state.table.HasPath info.ino info.fullPath)
    (locks : state.advancedWrites = false → ∀ ino ∈ call.locks,
      state.holder ino = some id) : (state.setCall id call).Sound := by
  refine ⟨sound.order, ?_, ?_, sound.orphans.inherit (.refl _) rfl rfl, ?_⟩
  · intro other member
    rcases mem_set member with rfl | ⟨_, _, found⟩
    · exact names
    · exact sound.names other (List.mem_iff_getElem?.mpr ⟨_, found⟩)
  · intro other member
    rcases mem_set member with rfl | ⟨_, _, found⟩
    · exact path
    · exact sound.path other (List.mem_iff_getElem?.mpr ⟨_, found⟩)
  · intro streaming index other found
    simp only [Unlinks.setCall, List.getElem?_set] at found
    split at found
    · rename_i here
      subst here
      split at found
      · obtain rfl := Option.some.inj found
        exact locks streaming
      · cases found
    · exact sound.locks streaming index other found

/-- The other calls keep their locks when one call lets go of its own. -/
theorem HoldsLocks.unlock (locks : state.HoldsLocks) {id : Nat}
    {call : UnlinkCall} (free : call.locks = none) :
    ((state.unlock id).setCall id call).HoldsLocks := by
  intro streaming index other found ino held
  simp only [Unlinks.setCall, Unlinks.unlock, List.getElem?_set] at found
  split at found
  · split at found
    · obtain rfl := Option.some.inj found
      rw [free] at held
      cases held
    · cases found
  · rename_i different
    have holds := locks streaming index other found ino held
    simp only [Unlinks.setCall, Unlinks.unlock, holds]
    rw [if_neg]
    intro same
    exact different (Option.some.inj same).symm

theorem Sound.release (sound : state.Sound) {id : Nat} {call : UnlinkCall}
    (pending : call.pending = none) (free : call.locks = none) :
    ((state.unlock id).setCall id call).Sound := by
  have noUnsent : ∀ info, info ∉ call.unsent := by
    intro info unsent
    have listed := pending_of_unsent unsent
    rw [pending] at listed
    cases listed
  refine ⟨sound.order, ?_, ?_, sound.orphans.inherit (.refl _) rfl rfl,
    sound.locks.unlock free⟩
  · intro other member
    rcases mem_set member with rfl | ⟨_, _, found⟩
    · rw [pending]
      intro info none
      cases none
    · exact sound.names other (List.mem_iff_getElem?.mpr ⟨_, found⟩)
  · intro other member
    rcases mem_set member with rfl | ⟨_, _, found⟩
    · exact fun info unsent => absurd unsent (noUnsent info)
    · exact sound.path other (List.mem_iff_getElem?.mpr ⟨_, found⟩)

theorem Sound.finish (sound : state.Sound) (id : Nat) (errno : Option Errno) :
    (state.finish id errno).Sound :=
  sound.release rfl rfl

/-! ## The steps of an unlink -/

theorem Sound.snapshot (sound : state.Sound) {id : Nat} {parent : Ino}
    {name : Name} {target : Option Ino}
    (holds : state.advancedWrites = false → ∃ ino, target = some ino ∧
      state.holder ino = some id) :
    (state.snapshot id parent name target).Sound := by
  unfold Unlinks.snapshot
  split
  · exact sound.finish id _
  rename_i entry looked
  split
  · exact sound.finish id _
  rename_i file
  split
  · exact sound.release rfl rfl
  rename_i same
  split
  · exact sound.finish id _
  have names := sound.order.wf.namesFile_of_lookup looked file
  apply sound.setCall
  · intro info isInfo
    obtain rfl := Option.some.inj isInfo
    exact names
  · intro info isInfo
    obtain rfl := Option.some.inj isInfo
    obtain ⟨_, _, _, isChild⟩ := sound.order.wf.lookupChild.mp looked
    exact ⟨entry, isChild.found, rfl⟩
  · intro streaming ino isIno
    obtain rfl := Option.some.inj isIno
    obtain ⟨locked, rfl, held⟩ := holds streaming
    have sameIno : locked = entry.inode := by simpa using same
    rw [sameIno] at held
    exact held

theorem Sound.lookTarget (sound : state.Sound) {id : Nat} {parent : Ino}
    {name : Name} : (state.lookTarget id parent name).Sound := by
  unfold Unlinks.lookTarget
  split
  · exact sound.finish id _
  split
  · exact sound.finish id _
  apply sound.setCall
  · intro info isInfo
    cases isInfo
  · intro info isInfo
    cases isInfo
  · intro _ ino isIno
    cases isIno

/-- No other call is about the inode whose name goes. -/
theorem Sound.other_ino (sound : state.Sound) {id : Nat} {info : Examined}
    (called : state.calls[id]? = some (.deleted info))
    (sole : state.SoleUnlink id info) {index : Nat} {other : UnlinkCall}
    (different : index ≠ id) (found : state.calls[index]? = some other)
    {pending : Examined} (isPending : pending ∈ other.pending) :
    pending.ino ≠ info.ino := by
  intro same
  have names := sound.names _ (List.mem_iff_getElem?.mpr ⟨id, called⟩) info rfl
  have otherNames := sound.names other (List.mem_iff_getElem?.mpr
    ⟨index, found⟩) pending isPending
  cases mode : state.advancedWrites with
  | true =>
      have inRange := (List.getElem?_eq_some_iff.mp found).1
      apply sole mode index inRange different other found pending isPending
      apply names.unique sound.order.wf
      rw [← same]
      exact otherNames.child
  | false =>
      have mine := sound.locks mode id _ called info.ino rfl
      have others := sound.locks mode index other found pending.ino
        (locks_of_pending isPending)
      rw [same, mine] at others
      exact different (Option.some.inj others).symm

theorem Sound.unlinkLocal (sound : state.Sound) {id : Nat} {info : Examined}
    (called : state.calls[id]? = some (.deleted info))
    (sole : state.SoleUnlink id info) (now : Time) :
    ({ state with
      table := Unlinks.unlinkLocal state.table info now }.finish id
        none).Sound := by
  have names := sound.names _ (List.mem_iff_getElem?.mpr ⟨id, called⟩) info rfl
  obtain ⟨touched, removal⟩ := removal sound.order names now
  have stays : ∀ other ∈ state.calls.set id (.returned none),
      ∀ pending ∈ other.pending, other ∈ state.calls ∧ pending.ino ≠ info.ino := by
    intro other member pending isPending
    rcases mem_set member with rfl | ⟨index, different, found⟩
    · cases isPending
    · exact ⟨List.mem_iff_getElem?.mpr ⟨index, found⟩,
        sound.other_ino called sole different found isPending⟩
  refine ⟨removal.inOrder, ?_, ?_, ?_, ?_⟩
  · intro other member pending isPending
    obtain ⟨listed, different⟩ := stays other member pending isPending
    exact (removal.namesFile (sound.names other listed pending isPending)
      different).1
  · intro other member pending unsent
    have isPending := pending_of_unsent unsent
    obtain ⟨listed, different⟩ := stays other member pending isPending
    exact (removal.namesFile (sound.names other listed pending isPending)
      different).2 _ (sound.path other listed pending unsent)
  · exact sound.orphans.inherit (removal.inherits sound.order names) rfl rfl
  · have locks : { state with
        table := Unlinks.unlinkLocal state.table info now }.HoldsLocks :=
      sound.locks
    exact locks.unlock rfl

theorem Sound.advance (sound : state.Sound) {after : Unlinks} {id : Nat}
    {now : Time} {call : UnlinkCall} (called : state.calls[id]? = some call)
    (sole : ∀ info, call = .deleted info → state.SoleUnlink id info)
    (stepped : state.advance id now call = some after) : after.Sound := by
  have member := List.mem_iff_getElem?.mpr ⟨id, called⟩
  cases call with
  | started parent name =>
      obtain rfl := Option.some.inj stepped
      split <;> rename_i mode
      · apply sound.snapshot
        intro streaming
        rw [mode] at streaming
        cases streaming
      · exact sound.lookTarget
  | locking parent name target =>
      simp only [Unlinks.advance, Option.ite_none_right_eq_some,
        Option.some.injEq] at stepped
      obtain ⟨free, rfl⟩ := stepped
      have locked : { state with
          holder := Function.update state.holder target (some id) }.Sound := by
        refine ⟨sound.order, sound.names, sound.path, sound.orphans, ?_⟩
        intro streaming index other found ino held
        have holds := sound.locks streaming index other found ino held
        have elsewhere : ino ≠ target := by
          rintro rfl
          rw [free] at holds
          cases holds
        exact (Function.update_of_ne elsewhere _ _).trans holds
      apply locked.setCall
      · intro info isInfo
        cases isInfo
      · intro info isInfo
        cases isInfo
      · intro _ ino isIno
        obtain rfl := Option.some.inj isIno
        exact Function.update_self _ _ _
  | locked parent name target =>
      obtain rfl := Option.some.inj stepped
      apply sound.snapshot
      intro streaming
      exact ⟨target, rfl, sound.locks streaming id _ called target rfl⟩
  | examined info =>
      obtain rfl := Option.some.inj stepped
      split
      · exact sound.finish id _
      · apply sound.setCall
        · exact sound.names (.examined info) member
        · exact sound.path (.examined info) member
        · exact fun streaming =>
            sound.locks streaming id (.examined info) called
  | allowed info =>
      obtain rfl := Option.some.inj stepped
      have sent : ∀ deletes, { state with deletes }.Sound := fun _ =>
        ⟨sound.order, sound.names, sound.path, sound.orphans, sound.locks⟩
      apply (sent _).setCall
      · exact sound.names (.allowed info) member
      · intro info isInfo
        cases isInfo
      · exact fun streaming => sound.locks streaming id (.allowed info) called
  | deleted info =>
      obtain rfl := Option.some.inj stepped
      exact sound.unlinkLocal called (sole info rfl) now
  | returned errno => cases stepped

theorem Sound.unlink (sound : state.Sound) (parent : Ino) (name : Name) :
    { state with
      calls := state.calls ++ [UnlinkCall.started parent name] }.Sound := by
  have old : ∀ call ∈ state.calls ++ [UnlinkCall.started parent name],
      ∀ info ∈ call.pending, call ∈ state.calls := by
    intro call member info pending
    rcases List.mem_append.mp member with listed | isNew
    · exact listed
    · obtain rfl := List.mem_singleton.mp isNew
      cases pending
  refine ⟨sound.order, ?_, ?_, sound.orphans, ?_⟩
  · intro call member info pending
    exact sound.names call (old call member info pending) info pending
  · intro call member info unsent
    have pending := pending_of_unsent unsent
    exact sound.path call (old call member info pending) info unsent
  · intro streaming id call found ino held
    rw [List.getElem?_append] at found
    split at found
    · exact sound.locks streaming id call found ino held
    · obtain rfl := List.mem_singleton.mp (List.mem_of_getElem? found)
      cases held

theorem Sound.refuse (sound : state.Sound) {after : Unlinks} {id : Nat}
    {errno : Errno} {call : UnlinkCall}
    (stepped : state.refuse id errno call = some after) : after.Sound := by
  cases call with
  | allowed info =>
      simp only [Unlinks.refuse, Option.ite_none_right_eq_some,
        Option.some.injEq] at stepped
      obtain ⟨_, rfl⟩ := stepped
      exact sound.finish id _
  | _ => cases stepped

/-! ## The other steps -/

theorem Sound.create (sound : state.Sound) {after : InodeTable} {parent : Ino}
    {name : Name} {fullPath : Path} {kind : InodeKind} {size : Nat}
    {mtime : Time} {xetHash : Option Hash} {mode uid gid : Nat} {now : Time}
    (fits : state.table.Fits (.insert parent name fullPath kind size mtime
      xetHash mode uid gid now))
    (applied : state.table.applyOp (.insert parent name fullPath kind size mtime
      xetHash mode uid gid now) = some after) :
    { state with table := after }.Sound := by
  have order := sound.order.applyOp fits applied
  simp only [InodeTable.applyOp, Option.ite_none_right_eq_some,
    Bool.and_eq_true, Option.some.injEq] at applied
  obtain ⟨⟨isDirectory, _⟩, inserted⟩ := applied
  obtain ⟨parentEntry, found, directory⟩ :=
    InodeTable.isDirectory_iff.mp isDirectory
  have wf := sound.order.wf
  apply sound.setTable order
  · intro call member info pending
    exact (sound.names call member info pending).insert wf found directory
      inserted
  · intro call member info unsent
    exact (sound.path call member info unsent).insert wf found directory inserted
  · exact InodeTable.inherits_insert wf order found directory inserted

theorem Sound.rename (sound : state.Sound) {after : InodeTable}
    {info : RenameInfo} {request : RenameRequest} {now : Time}
    (fits : state.table.Fits (.renameApplyLocal info request now))
    (apart : state.RenameApart info request)
    (applied : state.table.applyOp (.renameApplyLocal info request now) =
      some after) : { state with table := after }.Sound := by
  have order := sound.order.applyOp fits applied
  apply sound.setTable order
  · intro call member pending isPending
    obtain ⟨notSource, notDestination⟩ := (apart call member).1 pending isPending
    exact (sound.names call member pending isPending).rename sound.order fits
      applied notSource notDestination
  · intro call member pending unsent
    have isPending := pending_of_unsent unsent
    obtain ⟨_, notDestination⟩ := (apart call member).1 pending isPending
    exact (sound.path call member pending unsent).rename
      (sound.names call member pending isPending) sound.order fits applied
      notDestination ((apart call member).2 pending unsent)
  · exact InodeTable.inherits_rename sound.order order fits applied

/-- A change of fields that closes no handle. -/
theorem Sound.modify (sound : state.Sound) (ino : Ino)
    {change : InodeEntry → InodeEntry}
    (same : ∀ entry : InodeEntry, entry.SameLinks (change entry))
    (handles : ∀ entry : InodeEntry,
      entry.eviction.openHandles ≤ (change entry).eviction.openHandles) :
    { state with table := state.table.modify ino change }.Sound := by
  apply sound.setTable (sound.order.update ino same)
  · intro call member info pending
    exact (sound.names call member info pending).modify ino same
  · intro call member info unsent
    exact (sound.path call member info unsent).modify ino same
  · exact InodeTable.inherits_modify state.table ino same handles

theorem Sound.close (sound : state.Sound) (ino : Ino) :
    { state with
      table := state.table.dropOpenHandles ino
      closing := ino :: state.closing }.Sound := by
  have same : ∀ entry : InodeEntry, entry.SameLinks { entry with
      eviction := { entry.eviction with
        openHandles := entry.eviction.openHandles - 1 } } :=
    fun entry => InodeTable.sameLinks_eviction entry _
  refine ⟨sound.order.update ino same, ?_, ?_, ?_, sound.locks⟩
  · intro call member info pending
    exact (sound.names call member info pending).modify ino same
  · intro call member info unsent
    exact (sound.path call member info unsent).modify ino same
  · intro target entry found noLinks
    by_cases here : target = ino
    · subst here
      exact Or.inr (Or.inl List.mem_cons_self)
    · have before : state.table.get target = some entry :=
        (InodeTable.get_modify_of_ne _ here _).symm.trans found
      rcases sound.orphans target entry before noLinks with
        opened | closing | reaping
      · exact Or.inl opened
      · exact Or.inr (Or.inl (List.mem_cons_of_mem _ closing))
      · exact Or.inr (Or.inr reaping)

theorem Sound.checkLast (sound : state.Sound) (ino : Ino) :
    (state.checkLast ino).Sound := by
  refine ⟨sound.order, sound.names, sound.path, ?_, sound.locks⟩
  intro target entry found noLinks
  rcases sound.orphans target entry found noLinks with
    opened | closing | reaping
  · exact Or.inl opened
  · by_cases here : target = ino
    · subst here
      by_cases opened : 0 < entry.eviction.openHandles
      · exact Or.inl opened
      · have closed : state.table.hasOpenHandles target = false := by
          have foundHere : state.table.get target = some entry := found
          simp [InodeTable.hasOpenHandles, foundHere,
            InodeEntry.hasOpenHandles, opened]
        right
        right
        simp [Unlinks.checkLast, closed]
    · exact Or.inr (Or.inl ((List.mem_erase_of_ne here).mpr closing))
  · right
    right
    simp only [Unlinks.checkLast]
    split
    · exact reaping
    · exact List.mem_cons_of_mem _ reaping

theorem Sound.reap (sound : state.Sound) {ino : Ino}
    (stays : (∃ entry ∈ state.table.get ino,
      entry.eviction.evictPending = true) →
        ∀ call ∈ state.calls, ∀ info ∈ call.pending, info.ino ≠ ino) :
    { state with
      table := (state.table.reapOnLastRelease state.overlay ino).table
      reaping := state.reaping.erase ino }.Sound := by
  refine ⟨sound.order.reap state.overlay ino, ?_, ?_, ?_, sound.locks⟩
  · intro call member info pending
    exact ((sound.names call member info pending).reap sound.order state.overlay
      fun deferred => stays deferred call member info pending).1
  · intro call member info unsent
    have pending := pending_of_unsent unsent
    exact ((sound.names call member info pending).reap sound.order state.overlay
      fun deferred => stays deferred call member info pending).2 _
        (sound.path call member info unsent)
  · intro target other found noLinks
    obtain ⟨different, opened | ⟨entry, foundEntry, links, closed⟩⟩ :=
      InodeTable.inherits_reap sound.order state.overlay ino found noLinks
    · exact Or.inl opened
    · right
      have owned := (sound.orphans target entry foundEntry links).resolve_left
        (by omega)
      exact owned.imp_right (List.mem_erase_of_ne different).mpr

end

theorem sound_step {before after : Unlinks} {event : UnlinkEvent}
    (sound : before.Sound) (leaves : before.LeavesExamined event)
    (stepped : before.step event = some after) : after.Sound := by
  cases event with
  | unlink parent name =>
      obtain rfl := Option.some.inj stepped
      exact sound.unlink parent name
  | advance id now =>
      obtain ⟨call, called, advanced⟩ := Option.bind_eq_some_iff.mp stepped
      refine sound.advance called ?_ advanced
      rintro info rfl
      exact leaves _ called info rfl rfl
  | refused id errno =>
      obtain ⟨call, _, refused⟩ := Option.bind_eq_some_iff.mp stepped
      exact sound.refuse refused
  | create parent name fullPath kind size mtime xetHash mode uid gid now =>
      obtain ⟨table, applied, rfl⟩ := Option.map_eq_some_iff.mp stepped
      exact sound.create leaves applied
  | rename info request now =>
      obtain ⟨table, applied, rfl⟩ := Option.map_eq_some_iff.mp stepped
      exact sound.rename leaves.1 leaves.2 applied
  | update ino attr =>
      obtain rfl := Option.some.inj stepped
      exact sound.modify ino attr.same fun entry => (attr.openHandles entry).ge
  | openFile ino =>
      obtain rfl := Option.some.inj stepped
      exact sound.modify ino
        (fun entry => InodeTable.sameLinks_eviction entry _)
        fun entry => Nat.le_succ _
  | close ino =>
      simp only [step, Option.ite_none_right_eq_some,
        Option.some.injEq] at stepped
      obtain ⟨_, rfl⟩ := stepped
      exact sound.close ino
  | checkLast ino =>
      simp only [step, Option.ite_none_right_eq_some,
        Option.some.injEq] at stepped
      obtain ⟨_, rfl⟩ := stepped
      exact sound.checkLast ino
  | reap ino =>
      simp only [step, Option.ite_none_right_eq_some,
        Option.some.injEq] at stepped
      obtain ⟨_, rfl⟩ := stepped
      exact sound.reap leaves

/-! ## Every run -/

/-- Each delete that goes out next is for the path of the examined inode, each
local removal takes out the name of the examined inode and nothing else, and an
inode without links is open unless its last release is under way. -/
structure UnlinkSafe (state : Unlinks) : Prop where
  delete : ∀ info, .allowed info ∈ state.calls →
    state.table.HasPath info.ino info.fullPath
  removal : ∀ info now, .deleted info ∈ state.calls →
    state.table.HasChild info.parent info.name info.ino ∧
      RemovesOnly state.table (unlinkLocal state.table info now) info
  orphans : state.OrphansOwned

theorem sound_new (advancedWrites overlay : Bool) :
    (new advancedWrites overlay).Sound := by
  refine ⟨InodeTable.inOrder_new, ?_, ?_, ?_, ?_⟩
  · intro call member
    cases member
  · intro call member
    cases member
  · intro ino entry found noLinks
    have file := InodeTable.inOrder_new.file_of_orphan found noLinks
    obtain ⟨rfl, rfl⟩ := InodeTable.eq_root_of_get_new found
    exact absurd rfl file
  · intro _ id call found
    cases found

/-- Unlinks do what they should in every state of a run in which every step
leaves alone what the pending unlinks have examined. -/
theorem unlink_removes_examined {advancedWrites overlay : Bool}
    {events : List UnlinkEvent} {state : Unlinks}
    (leaves : AllSteps step LeavesExamined (new advancedWrites overlay) events)
    (run : exec step (new advancedWrites overlay) events = some state) :
    state.UnlinkSafe := by
  have sound : state.Sound := exec_invariant
    (fun _ _ _ before left stepped => sound_step before left stepped)
    (sound_new advancedWrites overlay) leaves run
  refine ⟨?_, ?_, sound.orphans⟩
  · intro info member
    exact sound.path _ member info rfl
  · intro info now member
    have names := sound.names _ member info rfl
    exact ⟨names.child, removesOnly sound.order names now⟩

/-- The files `a` and `b`, and an unlink of `a` that is past its checks. -/
def unlinkChecked : List UnlinkEvent :=
  [.create rootInode ['a'] ['a'] .file 1 0 (some ['g']) 420 0 0 0,
    .create rootInode ['b'] ['b'] .file 1 0 (some ['h']) 420 0 0 0,
    .unlink rootInode ['a'], .advance 0 1, .advance 0 1]

def renameB (newname : Name) : UnlinkEvent :=
  .rename ⟨3, ['b'], .file, some ['h'], false, newname, []⟩
    ⟨rootInode, ['b'], rootInode, newname, false⟩ 2

/-- Meanwhile `b` is renamed to `c`. -/
theorem unlink_removes_examined_other_rename :
    ((exec step (new true false) (unlinkChecked ++
      [renameB ['c'], .advance 0 3])).get (by decide)).UnlinkSafe :=
  @unlink_removes_examined true false (unlinkChecked ++
    [renameB ['c'], .advance 0 3]) _ (by decide) (Option.some_get _).symm

/-- Meanwhile `b` is renamed to `a`: the unlink takes away the new `a`, and
leaves the inode without links and handles. -/
theorem unlink_not_safe : ¬ ∀ (advancedWrites overlay : Bool)
    (events : List UnlinkEvent) (state : Unlinks),
    exec step (new advancedWrites overlay) events = some state →
    state.UnlinkSafe := by
  intro claim
  have safe := claim true false (unlinkChecked ++
    [renameB ['a'], .advance 0 3, .advance 0 4]) _ rfl
  have owned := safe.orphans 3 _ rfl rfl
  revert owned
  decide

end Unlinks

end HfMount.Vfs
