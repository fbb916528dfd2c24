import HfMount.Vfs.OverlaySound

/-!
# rmdir and rename keep the backing in step

As long as rmdir finds the directory empty again after it has taken it off the
disk, rename finds what it validated after it has moved the source, and nothing
is created or listed where the source was, a call that fails has left the disk
as it was, and every dirty inode stays on the disk.
-/

namespace HfMount.Vfs

open SlashPath Inode InodeTable Transition

namespace OverlayRun

section

variable {start run next : OverlayRun} {parent : Ino} {name : Name}
  {parentEntry : InodeEntry}

/-! ## Listings -/

theorem holds_of_lookup {table : InodeTable} (wf : table.WellFormed)
    {entry : InodeEntry} (looked : table.lookupChild parent name = some entry) :
    table.get entry.inode = some entry ∧ entry.isLive = true ∧
      table.Holds entry.inode entry.fullPath := by
  obtain ⟨above, foundAbove, listed, isChild⟩ := wf.lookupChild.mp looked
  obtain ⟨-, notRoot, valid⟩ := wf.directory foundAbove listed
  have found : table.get entry.inode = some entry := isChild.found
  refine ⟨found, isChild.live, (wf.key found).2, notRoot, ?_, ?_⟩
  · rw [isChild.fullPath]
    exact childPath_ne_nil valid _
  · intro other got
    obtain rfl := Option.some.inj (found.symm.trans got)
    exact ⟨isChild.live, rfl⟩

/-- The directory stays, and what is left under the name has the kind. -/
theorem cleared_spec {table : InodeTable} (order : table.InOrder)
    (found : table.get parent = some parentEntry) (kind : InodeKind) :
    table.Quiet (cleared table parent name kind) ∧
      (∃ above, (cleared table parent name kind).get parent = some above ∧
        parentEntry.SamePlace above) ∧
      ∀ entry, (cleared table parent name kind).lookupChild parent name =
        some entry → entry.kind = kind := by
  unfold cleared
  split <;> rename_i looked
  · rename_i entry
    split <;> rename_i unlike
    · obtain ⟨foundEntry, live, holds⟩ := holds_of_lookup order.wf looked
      obtain ⟨above, foundAbove, -, isChild⟩ := order.wf.lookupChild.mp looked
      obtain rfl := Option.some.inj (found.symm.trans foundAbove)
      have quiet := quiet_remove order foundEntry holds.notRoot live
      have pruned := pruned_remove order.wf foundEntry holds.notRoot live
      have apart : ¬ table.Below entry.inode parent :=
        isChild.parent ▸ order.wf.parent_not_below foundEntry holds.notRoot live
      obtain ⟨kept, gotKept, place, -⟩ := pruned.kept apart found
      refine ⟨quiet, ⟨kept, gotKept, place⟩, ?_⟩
      intro other again
      -- the name is free: its path was that of the inode that is gone
      obtain ⟨dir, foundDir, -, again⟩ :=
        quiet.order.wf.lookupChild.mp again
      obtain rfl := Option.some.inj (gotKept.symm.trans foundDir)
      have samePath : other.fullPath = entry.fullPath := by
        rw [again.fullPath, place.fullPath, isChild.fullPath]
      have mapped := quiet.order.wf.path.mpr
        ⟨other, again.found, again.live, samePath⟩
      obtain ⟨before, outside⟩ := pruned.path.mp mapped
      have own := order.wf.path.mpr ⟨entry, foundEntry, live, rfl⟩
      have same : entry.inode = other.inode :=
        Option.some.inj (own.symm.trans before)
      exact absurd (same ▸ .refl) outside
    · refine ⟨.refl order, ⟨parentEntry, found, .refl _⟩, ?_⟩
      intro other again
      obtain rfl := Option.some.inj (looked.symm.trans again)
      exact not_not.mp unlike
  · refine ⟨.refl order, ⟨parentEntry, found, .refl _⟩, ?_⟩
    intro other again
    rw [looked] at again
    cases again

theorem overridden_spec (node : DiskNode) (size : Nat) (mtime : Time)
    (mode : Nat) (entry : InodeEntry) :
    entry.SameLinks (overridden node size mtime mode entry) ∧
      (overridden node size mtime mode entry).eviction.openHandles =
        entry.eviction.openHandles := by
  unfold overridden
  dsimp only
  split
  · exact ⟨.of_fields rfl, rfl⟩
  · exact ⟨.of_fields rfl, rfl⟩

/-- Another call marks one inode dirty, which is on the disk or on its way. -/
theorem Ready.follows (ready : run.Ready) {middle : InodeTable}
    (quiet : run.table.Quiet middle) (ino : Ino)
    {change : InodeEntry → InodeEntry}
    (same : ∀ entry : InodeEntry, entry.SameLinks (change entry) ∧
      (change entry).eviction.openHandles = entry.eviction.openHandles)
    {pending : List PendingNode} (subset : run.pending ⊆ pending)
    (fresh : ∀ node ∈ pending, node ∈ run.pending ∨
      (middle.modify ino change).Awaits node.ino node.kind)
    (distinct : (pending.map (·.ino)).Nodup)
    (own : ∀ entry, middle.get ino = some entry → entry.kind ≠ .symlink ∧
      ((∀ node ∈ pending, node.ino ≠ ino) →
        run.backing.kindAt (run.call.place entry.fullPath) =
          some entry.kind)) :
    run.Follows { run with
      table := middle.modify ino change
      pending } := by
  have entries : ∀ {other : Ino} {entry : InodeEntry},
      (middle.modify ino change).get other = some entry →
      ∃ before, middle.get other = some before ∧ before.SamePlace entry ∧
        entry.eviction.openHandles = before.eviction.openHandles ∧
        (other ≠ ino → entry = before) := by
    intro other entry got
    rw [get_modify] at got
    split at got <;> rename_i here
    · obtain ⟨before, found, rfl⟩ := Option.map_eq_some_iff.mp got
      exact ⟨before, here ▸ found, (same before).1.toSamePlace, (same before).2,
        fun different => absurd here different⟩
    · exact ⟨entry, got, .refl entry, rfl, fun _ => rfl⟩
  refine ⟨quiet.order.update ino fun entry => (same entry).1,
    quiet.nextInode.trans (nextInode_modify _ _ _).ge, ?_, rfl, .refl _, ?_,
    distinct, ?_⟩
  · intro other entry given got
    obtain ⟨before, foundBefore, place, -⟩ := entries got
    obtain ⟨first, found, standing⟩ := quiet.old given foundBefore
    exact ⟨first, found, standing.toSamePlace.trans place⟩
  · intro node member
    rcases fresh node member with old | new
    · have awaits := ready.awaits node old
      refine ⟨awaits.given.trans_le
        (quiet.nextInode.trans (nextInode_modify _ _ _).ge), awaits.notRoot, ?_⟩
      intro entry got
      obtain ⟨before, foundBefore, place, handles, -⟩ := entries got
      obtain ⟨first, found, standing⟩ := quiet.old awaits.given foundBefore
      obtain ⟨live, kind, closed⟩ := awaits.entry first found
      refine ⟨?_, ?_, ?_⟩
      · rw [place.isLive, standing.isLive, live]
      · rw [place.kind, standing.kind, kind]
      · rw [handles, standing.handles, closed]
    · exact new
  · rintro other kind path ⟨entry, got, live, dirty, rfl, rfl⟩
    obtain ⟨before, foundBefore, place, -, elsewhere⟩ := entries got
    by_cases here : other = ino
    · obtain ⟨symlink, backed⟩ := own before (here ▸ foundBefore)
      rw [place.kind, place.fullPath]
      exact Or.inr ⟨symlink, fun settles => backed (here ▸ settles)⟩
    · obtain rfl := elsewhere here
      exact Or.inl ⟨quiet.marks ⟨entry, foundBefore, live, dirty, rfl, rfl⟩,
        fun settles node member => settles node (subset member)⟩

/-- A name of the disk is dirty from then on, and is on the disk. -/
theorem Sound.merges (sound : Sound start run)
    (found : run.table.get parent = some parentEntry)
    (directory : parentEntry.kind = .directory) (valid : ValidName name)
    {node : DiskNode}
    (onDisk : run.backing.dir.node (childPath parentEntry.fullPath name) =
      some node) (symlink : node.kind ≠ .symlink)
    (placed : run.call.place (childPath parentEntry.fullPath name) =
      childPath parentEntry.fullPath name)
    (size : Nat) (mtime : Time) (mode uid gid : Nat) (now : Time) :
    Sound start { run with
      table := run.merge parent parentEntry.fullPath name node size mtime mode
        uid gid now } := by
  obtain ⟨quietCleared, ⟨above, foundAbove, place⟩, alike⟩ :=
    @cleared_spec parent name parentEntry run.table sound.order found node.kind
  have aboveDirectory : above.kind = .directory := place.kind.trans directory
  have quietInserted := quiet_insert quietCleared.order foundAbove
    aboveDirectory valid node.kind size mtime none mode uid gid now
  rw [place.fullPath] at quietInserted
  unfold merge
  apply sound.follow
  apply sound.toReady.follows (quietCleared.trans quietInserted) _
    (overridden_spec node size mtime mode) (List.Subset.refl _)
    (fun _ => Or.inl) sound.distinct
  intro entry got
  obtain ⟨kind, path⟩ := get_insert_self quietCleared.order.wf foundAbove
    aboveDirectory valid node.kind alike size mtime none mode uid gid now
    (by rw [place.fullPath]; exact got)
  rw [kind, path, place.fullPath, placed]
  exact ⟨symlink, fun _ =>
    OverlayBacking.kindAt_of_node (childPath_ne_nil valid _) onDisk⟩

/-- A create or mkdir that is in the table and not yet on the disk. -/
theorem Sound.inserts (sound : Sound start run)
    (found : run.table.get parent = some parentEntry)
    (directory : parentEntry.kind = .directory) (valid : ValidName name)
    {kind : InodeKind} (symlink : kind ≠ .symlink)
    (free : run.table.lookupChild parent name = none) (mode uid gid : Nat)
    (now : Time) :
    Sound start (run.insertLocal parent parentEntry name kind mode uid gid
      now) := by
  have wf := sound.order.wf
  have unnamed := (wf.lookupChild_none found).mp free
  have quiet := quiet_insert sound.order found directory valid kind 0 now none
    mode uid gid now
  obtain ⟨after, inserted, next, -, gotNew, -, -⟩ := insert_of_free wf found
    directory valid unnamed kind 0 now none mode uid gid now
  unfold insertLocal
  dsimp only
  rw [inserted] at quiet ⊢
  have rootGiven : rootInode < run.table.nextInode := by
    obtain ⟨root, foundRoot, -⟩ := wf.root
    exact (wf.key foundRoot).2
  have changed : ∀ entry : InodeEntry,
      entry.SameLinks (createdEntry kind now entry) ∧
        (createdEntry kind now entry).eviction.openHandles =
          entry.eviction.openHandles :=
    fun _ => ⟨.of_fields rfl, rfl⟩
  have follows := sound.toReady.follows quiet run.table.nextInode changed
    (List.subset_append_left run.pending [⟨run.table.nextInode, kind,
      childPath parentEntry.fullPath name⟩]) ?_ ?_ ?_
  · have dirty := sound.follow follows
    exact dirty.table (quiet_touchParent dirty.order parent now)
  · intro node member
    rcases List.mem_append.mp member with old | new
    · exact Or.inl old
    · obtain rfl := List.mem_singleton.mp new
      refine Or.inr ⟨?_, Nat.ne_of_gt rootGiven, ?_⟩
      · rw [nextInode_modify, next]
        exact Nat.lt_succ_self _
      · intro entry got
        rw [get_modify, if_pos rfl, gotNew] at got
        obtain rfl := Option.some.inj got
        exact ⟨(changed _).1.isLive.trans (by cases kind <;> rfl), rfl, rfl⟩
  · rw [List.map_append, List.nodup_append]
    refine ⟨sound.distinct, List.nodup_singleton _, ?_⟩
    intro old listed new isNew
    obtain ⟨node, member, rfl⟩ := List.mem_map.mp listed
    obtain rfl := List.mem_singleton.mp isNew
    exact Nat.ne_of_lt (sound.awaits node member).given
  · intro entry got
    obtain rfl := Option.some.inj (gotNew.symm.trans got)
    refine ⟨symlink, fun settles => ?_⟩
    exact absurd rfl (settles _ (List.mem_append_right _
      List.mem_cons_self))

/-! ## rmdir -/

theorem Sound.rmdirCheck (sound : Sound start run) (parent : Ino) (name : Name)
    (untouched : run.call.Untouched) :
    Sound start (run.rmdirCheck parent name) := by
  unfold OverlayRun.rmdirCheck
  split
  · exact sound.fails untouched _
  · rename_i entry looked
    split
    · exact sound.fails untouched _
    split
    · exact sound.fails untouched _
    split
    · exact sound.fails untouched _
    · exact sound.turn untouched trivial
        (holds_of_lookup sound.order.wf looked).2.2

theorem Sound.rmdirDisk (sound : Sound start run) {ino : Ino} {fullPath : Path}
    (untouched : run.call.Untouched) (holds : run.table.Holds ino fullPath) :
    Sound start (run.rmdirDisk parent ino fullPath) := by
  unfold OverlayRun.rmdirDisk
  split
  · rename_i backing removed
    refine ⟨⟨sound.order, sound.awaits, sound.distinct, ?_⟩, holds, False.elim⟩
    intro other kind path marks
    obtain ⟨symlink, backed⟩ := sound.backed marks
    refine ⟨symlink, fun settles stays => ?_⟩
    have before := backed settles (untouched.settled.removes path)
    rw [untouched.settled.place] at before
    exact (OverlayBacking.kindAt_removeDir removed stays).trans before
  · exact sound.turn untouched trivial holds
  · exact sound.fails untouched _

/-- The call is over, and the table and the disk have the same paths. -/
theorem Sound.ends (sound : Sound start run)
    (arrived : ∀ {ino kind path}, run.table.Marks ino kind path →
      run.Settles ino → ¬ run.call.removes path ∧ run.call.place path = path) :
    Sound start { run with call := .returned (.ok ()) } := by
  refine ⟨⟨sound.order, sound.awaits, sound.distinct, ?_⟩, trivial,
    False.elim⟩
  intro ino kind path marks
  obtain ⟨symlink, backed⟩ := sound.backed marks
  refine ⟨symlink, fun settles _ => ?_⟩
  obtain ⟨stays, placed⟩ := arrived marks settles
  have before := backed settles stays
  rw [placed] at before
  exact before

/-- The directory leaves the table as well. -/
theorem Sound.leaves (sound : Sound start run) {ino : Ino} {fullPath : Path}
    (holds : run.table.Holds ino fullPath)
    (call : ∀ path, run.call.place path = path ∧
      (run.call.removes path → path = fullPath))
    {entry : InodeEntry} (found : run.table.get ino = some entry) (now : Time) :
    Sound start { run with
      table := (run.table.remove ino).touchParent parent now
      call := .returned (.ok ()) } := by
  obtain ⟨live, atPath⟩ := holds.entry entry found
  have quiet := quiet_remove sound.order found holds.notRoot live
  have touched := quiet_touchParent quiet.order parent now
  refine (sound.table (quiet.trans touched)).ends ?_
  intro other kind path marks _
  refine ⟨fun removed => ?_, (call path).1⟩
  obtain rfl := (call path).2 removed
  obtain ⟨kept, got, -⟩ := touched.marks marks
  obtain ⟨before, foundBefore, liveBefore, -, -, path⟩ :=
    quiet.marks (touched.marks marks)
  have same := sound.order.wf.unique foundBefore found liveBefore live
    (path.trans atPath.symm)
  subst same
  rw [get_remove_below sound.order.wf found holds.notRoot live .refl] at got
  cases got

/-- The empty directory leaves the table as well. -/
theorem Sound.rmdirRemoved (sound : Sound start run) {ino : Ino}
    {fullPath : Path} (call : run.call = .rmdirRemoved parent ino fullPath)
    (holds : run.table.Holds ino fullPath) {entry : InodeEntry}
    (found : run.table.get ino = some entry) (empty : entry.children = []) (now : Time) :
    Sound start (run.rmdirFinish parent ino now) := by
  have finish : run.rmdirFinish parent ino now = { run with
      table := (run.table.remove ino).touchParent parent now
      call := .returned (.ok ()) } := by
    simp [OverlayRun.rmdirFinish, found, empty]
  rw [finish]
  apply sound.leaves holds _ found
  intro path
  rw [call]
  exact ⟨rfl, id⟩

/-- The directory was not on the disk. -/
theorem Sound.rmdirMissing (sound : Sound start run) {ino : Ino}
    {fullPath : Path} (untouched : run.call.Untouched)
    (holds : run.table.Holds ino fullPath) (now : Time) :
    Sound start (run.rmdirFinish parent ino now) := by
  unfold OverlayRun.rmdirFinish
  split
  · exact sound.fails untouched _
  · rename_i entry found
    split
    · exact sound.fails untouched _
    · apply sound.leaves holds _ found
      intro path
      exact ⟨untouched.settled.place path,
        fun removed => absurd removed (untouched.settled.removes path)⟩

/-! ## rename -/

theorem Sound.renameStart (sound : Sound start run) {request : RenameRequest}
    (untouched : run.call.Untouched)
    (addressed : Addressed run.table request) :
    Sound start (run.renameStart request) := by
  unfold OverlayRun.renameStart
  split
  · exact sound.turn untouched trivial trivial
  split
  · exact sound.fails untouched _
  · exact sound.turn untouched trivial addressed

theorem Sound.renameGuard (sound : Sound start run) {request : RenameRequest}
    (untouched : run.call.Untouched)
    (addressed : Addressed run.table request) :
    Sound start (run.renameGuard request) := by
  unfold OverlayRun.renameGuard
  split
  · exact sound.fails untouched _
  · exact sound.turn untouched trivial addressed

theorem Sound.renameCheck (sound : Sound start run) {request : RenameRequest}
    (untouched : run.call.Untouched)
    (addressed : Addressed run.table request) :
    Sound start (run.renameCheck request) := by
  unfold OverlayRun.renameCheck
  split
  · exact sound.fails untouched _
  · rename_i info validated
    obtain ⟨src, newParentEntry, valid⟩ := renameValidate_eq_ok validated
    obtain rfl := valid.info
    refine sound.turn untouched trivial ⟨addressed, ?_, ?_⟩
    · exact (holds_of_lookup sound.order.wf valid.looked).2.2
    · exact childPath_ne_nil addressed.name _

theorem Sound.renameFind (sound : Sound start run) {request : RenameRequest}
    {info : RenameInfo} (untouched : run.call.Untouched)
    (located : Located run.table request info) :
    Sound start (run.renameFind request info) := by
  unfold OverlayRun.renameFind
  split
  · exact sound.turn untouched trivial trivial
  split <;> rename_i onDisk
  · obtain ⟨kind, found, notSymlink⟩ := Option.any_eq_true _ _ |>.mp onDisk
    exact sound.turn untouched trivial
      ⟨located, kind, found, of_decide_eq_true notSymlink⟩
  · exact sound.fails untouched _

theorem Sound.renamePrepare (sound : Sound start run) {request : RenameRequest}
    {info : RenameInfo} (call : run.call = .renameFound request info) :
    Sound start (run.renamePrepare request info) := by
  have grows := run.backing.grows_createParentDirs info.newFullPath
  unfold OverlayRun.renamePrepare
  split <;> rename_i backing made
  · rw [made] at grows
    have grown := sound.grows grows
    have held := grown.held
    simp only [call] at held
    exact grown.turn (by simp only [call]; trivial) trivial held
  · rw [made] at grows
    exact (sound.grows grows).fails (by simp only [call]; trivial) _

/-- What is not replaced is on the disk where the move has put it. -/
theorem kindAt_rebase {backing after : OverlayBacking} {old new path : Path}
    {kind : InodeKind} (oldNonempty : old ≠ []) (newNonempty : new ≠ [])
    (source : ∃ kind, backing.kindAt old = some kind ∧ kind ≠ .symlink)
    (renamed : backing.rename old new = (none, after))
    (symlink : kind ≠ .symlink) (found : backing.kindAt path = some kind) :
    after.kindAt (rebase old new path) = some kind := by
  obtain ⟨moves, replaces⟩ := OverlayBacking.moves_rename renamed
  by_cases root : path = []
  · subst root
    have outside : ¬ Within old [] := by
      rintro (same | ⟨rest, longer⟩)
      · exact oldNonempty same.symm
      · simp at longer
    rw [rebase, if_neg outside]
    exact found
  obtain ⟨node, onDisk, rfl⟩ := OverlayBacking.node_of_kindAt root found
  by_cases within : Within old path
  · have nonempty : rebase old new path ≠ [] := by
      rw [rebase_of_within within]
      simp [newNonempty]
    apply OverlayBacking.kindAt_of_node nonempty
    rw [moves.moved path within]
    exact onDisk
  rw [rebase, if_neg within]
  by_cases inside : Within new path
  · rcases replaces with rfl | ⟨moved, replaces⟩
    · exact absurd inside within
    obtain ⟨leaf, alike⟩ :=
      OverlayBacking.replaceConflict_eq_none replaces.conflict
    by_cases here : path = new
    · subst here
      have arrived := moves.moved old (within_refl old)
      rw [rebase_self, replaces.source] at arrived
      rw [OverlayBacking.kindAt_of_node root arrived]
      obtain ⟨kind, foundSource, file⟩ := source
      rw [OverlayBacking.kindAt_of_node oldNonempty replaces.source] at foundSource
      obtain rfl := Option.some.inj foundSource
      have same := alike node.kind found
      cases first : node.kind <;> cases second : moved.kind <;> simp_all
    · rw [PathTree.isLeaf_iff.mp leaf path inside here] at onDisk
      cases onDisk
  · apply OverlayBacking.kindAt_of_node root
    rw [moves.apart path within inside]
    exact onDisk

theorem Sound.renameDisk (sound : Sound start run) {request : RenameRequest}
    {info : RenameInfo} (untouched : run.call.Untouched)
    (located : Located run.table request info)
    (source : ∃ kind, run.backing.kindAt info.oldPath = some kind ∧
      kind ≠ .symlink) : Sound start (run.renameDisk request info) := by
  unfold OverlayRun.renameDisk
  split
  · rename_i backing renamed
    refine ⟨⟨sound.order, sound.awaits, sound.distinct, ?_⟩, located,
      False.elim⟩
    intro ino kind path marks
    obtain ⟨symlink, backed⟩ := sound.backed marks
    refine ⟨symlink, fun settles _ => ?_⟩
    have before := backed settles (untouched.settled.removes path)
    rw [untouched.settled.place] at before
    exact kindAt_rebase located.holds.nonempty located.nonempty source renamed
      symlink before
  · exact sound.fails untouched _

theorem renameApplyLocal_ok {table : InodeTable} {info : RenameInfo}
    {request : RenameRequest} {src newParentEntry : InodeEntry}
    (current : table.Current info request src newParentEntry)
    (wf : table.WellFormed) (now : Time) :
    ∃ dropped after,
      table.renameApplyLocal info request now = .ok (dropped, after) := by
  have found : table.get info.ino = some src :=
    current.ino ▸ (current.valid.source wf).1
  unfold renameApplyLocal
  rw [found]
  cases looked : table.lookupChild request.newparent request.newname with
  | none => exact ⟨_, _, rfl⟩
  | some existing =>
      dsimp only
      split
      · exact ⟨_, _, rfl⟩
      · rw [current.kind, current.valid.noConflict existing looked]
        exact ⟨_, _, rfl⟩

/-- The table follows the disk. -/
theorem Sound.renameFits (sound : Sound start run) {request : RenameRequest}
    {info : RenameInfo} (call : run.call = .renameMoved request info)
    (located : Located run.table request info)
    (fits : run.table.renameFits info request = true) (now : Time) :
    Sound start (run.renameFinish request info now) := by
  have addressed := located.addressed
  obtain ⟨src, newParentEntry, current⟩ :=
    current_of_fits addressed.directory addressed.name fits
  obtain ⟨dropped, after, ok⟩ :=
    renameApplyLocal_ok current sound.order.wf now
  have applied := current.applied sound.order.wf ok
  have finish : run.renameFinish request info now = { run with
      table := after
      call := .returned (.ok ()) } := by
    unfold OverlayRun.renameFinish
    rw [ok]
  rw [finish]
  refine ⟨⟨?_, ?_, sound.distinct, ?_⟩, trivial, False.elim⟩
  · exact sound.order.renameApplyLocal addressed.directory addressed.name
      (fun _ => fits) ok
  · intro node member
    exact applied.awaits sound.order (sound.awaits node member)
  · intro ino kind path marks
    obtain ⟨before, marksBefore, rfl⟩ :=
      applied.marks current sound.order.wf located.holds marks
    obtain ⟨symlink, backed⟩ := sound.backed marksBefore
    rw [call] at backed
    exact ⟨symlink, fun settles _ => backed settles id⟩

/-- The source has gone, and nothing has to be on the disk in its old place. -/
theorem Sound.renameGone (sound : Sound start run) {request : RenameRequest}
    {info : RenameInfo} (call : run.call = .renameMoved request info)
    (gone : run.table.get info.ino = none)
    (vacated : ∀ ino kind path, run.table.Marks ino kind path →
      run.Settles ino → ¬ Within info.oldPath path) (now : Time) :
    Sound start (run.renameFinish request info now) := by
  have invalidated := quiet_invalidateChildren sound.order request.parent
  obtain ⟨table, quiet, finish⟩ : ∃ table, run.table.Quiet table ∧
      run.renameFinish request info now = { run with
        table
        call := .returned (.ok ()) } := by
    have missing : run.table.renameApplyLocal info request now =
        .error .enoent := by
      unfold InodeTable.renameApplyLocal
      rw [gone]
    unfold OverlayRun.renameFinish
    rw [missing]
    refine ⟨_, ?_, rfl⟩
    split
    · exact invalidated
    · exact invalidated.trans
        (quiet_invalidateChildren invalidated.order request.newparent)
  rw [finish]
  refine (sound.table quiet).ends ?_
  intro ino kind path marks settles
  have outside := vacated ino kind path (quiet.marks marks) settles
  simp only [call]
  exact ⟨id, if_neg outside⟩

end

/-! ## Runs -/

/-- After it has changed the disk, rmdir finds the directory empty in the
table, and rename finds what it validated, or neither its source nor anything
dirty in the old place.  Nothing is created or listed where the disk has
something else by then. -/
def Careful (run : OverlayRun) : OverlayStep → Prop
  | .advance _ =>
      match run.call with
      | .rmdirRemoved _ ino _ => ∃ entry, run.table.get ino = some entry ∧
          entry.children = []
      | .renameMoved request info =>
          run.table.renameFits info request = true ∨
            (run.table.get info.ino = none ∧
              ∀ ino kind path, run.table.Marks ino kind path →
                run.Settles ino → ¬ Within info.oldPath path)
      | _ => True
  | .merged parent name _ _ _ _ _ _ =>
      ∀ entry, run.table.get parent = some entry →
        run.call.place (childPath entry.fullPath name) =
          childPath entry.fullPath name
  | .finished index .attempted =>
      ∀ node, run.pending[index]? = some node →
        (makeNode run.backing node).1 = none →
        ∀ entry, run.table.get node.ino = some entry →
          entry.fullPath = node.fullPath ∧
            run.call.place node.fullPath = node.fullPath
  | _ => True

/-- A call that has failed has taken nothing off the disk and replaced nothing
there; and every dirty inode is on the disk, unless it is just being created,
moved or removed. -/
structure InStep (start run : OverlayRun) : Prop where
  failed : ∀ errno, run.call = .returned (.error errno) →
    start.backing.dir.Grows run.backing.dir
  backed : ∀ ino kind path, run.table.Marks ino kind path → run.Settles ino →
    ¬ run.call.removes path → run.call.place path = path →
    run.backing.kindAt path = some kind

/-- The call has not begun. -/
def Begins (run : OverlayRun) : Prop :=
  match run.call with
  | .rmdir _ _ => True
  | .rename request => Addressed run.table request
  | _ => False

section

variable {start run next final : OverlayRun} {event : OverlayStep}
  {events : List OverlayStep}

theorem Sound.inStep (sound : Sound start run) : InStep start run := by
  refine ⟨?_, ?_⟩
  · intro errno call
    apply sound.kept
    rw [call]
    trivial
  · intro ino kind path marks settles stays placed
    have backed := (sound.backed marks).2 settles stays
    rw [placed] at backed
    exact backed

theorem Ready.sound (ready : start.Ready) (begins : start.Begins) :
    Sound start start := by
  refine ⟨ready, ?_, fun _ => .refl _⟩
  unfold Begins at begins
  cases call : start.call with
  | rmdir => trivial
  | rename request =>
      rw [call] at begins
      exact begins
  | _ =>
      rw [call] at begins
      exact begins.elim

theorem Sound.advance (sound : Sound start run) {now : Time}
    (careful : run.Careful (.advance now))
    (stepped : run.advance now = some next) : Sound start next := by
  have held := sound.held
  unfold OverlayRun.advance at stepped
  unfold Careful at careful
  cases call : run.call with
  | rmdir parent name =>
      rw [call] at stepped
      obtain rfl := Option.some.inj stepped
      exact sound.rmdirCheck parent name (by rw [call]; trivial)
  | rmdirChecked parent ino fullPath =>
      rw [call] at stepped held
      obtain rfl := Option.some.inj stepped
      exact sound.rmdirDisk (by rw [call]; trivial) held
  | rmdirRemoved parent ino fullPath =>
      rw [call] at stepped held careful
      obtain rfl := Option.some.inj stepped
      obtain ⟨entry, found, empty⟩ := careful
      exact sound.rmdirRemoved call held found empty now
  | rmdirMissing parent ino fullPath =>
      rw [call] at stepped held
      obtain rfl := Option.some.inj stepped
      exact sound.rmdirMissing (by rw [call]; trivial) held now
  | rename request =>
      rw [call] at stepped held
      obtain rfl := Option.some.inj stepped
      exact sound.renameStart (by rw [call]; trivial) held
  | renameAllowed request =>
      rw [call] at stepped held
      obtain rfl := Option.some.inj stepped
      exact sound.renameGuard (by rw [call]; trivial) held
  | renameLoaded request =>
      rw [call] at stepped held
      obtain rfl := Option.some.inj stepped
      exact sound.renameCheck (by rw [call]; trivial) held
  | renameValidated request info =>
      rw [call] at stepped held
      obtain rfl := Option.some.inj stepped
      exact sound.renameFind (by rw [call]; trivial) held
  | renameFound request info =>
      rw [call] at stepped
      obtain rfl := Option.some.inj stepped
      exact sound.renamePrepare call
  | renamePrepared request info =>
      rw [call] at stepped held
      obtain rfl := Option.some.inj stepped
      exact sound.renameDisk (by rw [call]; trivial) held.1 held.2
  | renameMoved request info =>
      rw [call] at stepped held careful
      obtain rfl := Option.some.inj stepped
      rcases careful with fits | ⟨gone, vacated⟩
      · exact sound.renameFits call held fits now
      · exact sound.renameGone call gone vacated now
  | returned result =>
      rw [call] at stepped
      cases stepped

theorem Sound.refuse (sound : Sound start run) {errno : CallErrno}
    (stepped : run.refuse errno = some next) : Sound start next := by
  unfold OverlayRun.refuse at stepped
  split at stepped
  · cases stepped
  · cases stepped
  · cases stepped
  · cases stepped
  · rename_i removed missing moved returned
    obtain rfl := Option.some.inj stepped
    apply sound.fails
    cases call : run.call <;> simp_all [OverlayCall.Untouched]

theorem Sound.finish (sound : Sound start run) {index : Nat}
    {outcome : DiskOutcome} {node : PendingNode}
    (pending : run.pending[index]? = some node)
    (careful : run.Careful (.finished index outcome)) :
    Sound start (run.finish node outcome) := by
  have member := List.mem_of_getElem? pending
  have grows := (makeNode_spec run.backing node).1
  unfold OverlayRun.finish
  cases outcome with
  | refused => exact sound.drop member (.refl _)
  | modeRefused => exact sound.drop member grows
  | attempted =>
      dsimp only
      split <;> rename_i made
      · exact sound.made member made (careful node pending made)
      · exact sound.drop member grows

theorem sound_step (sound : Sound start run) (careful : run.Careful event)
    (stepped : run.step event = some next) : Sound start next := by
  unfold step at stepped
  cases event with
  | advance now => exact sound.advance careful stepped
  | refused errno => exact sound.refuse stepped
  | listed parent name kind size mtime xetHash mode uid gid now =>
      dsimp only at stepped
      split at stepped <;> rename_i found
      · split at stepped <;> rename_i allowed
        · obtain rfl := Option.some.inj stepped
          exact sound.table (quiet_insert sound.order found allowed.1 allowed.2
            kind size mtime xetHash mode uid gid now)
        · cases stepped
      · cases stepped
  | updated ino field =>
      obtain rfl := Option.some.inj stepped
      exact sound.table (quiet_modify sound.order ino field.same field.dirty
        field.handles)
  | stale parent name =>
      dsimp only at stepped
      split at stepped <;> rename_i looked
      · split at stepped
        · cases stepped
        · obtain rfl := Option.some.inj stepped
          obtain ⟨found, live, holds⟩ :=
            holds_of_lookup sound.order.wf looked
          exact sound.table
            (quiet_remove sound.order found holds.notRoot live)
      · cases stepped
  | merged parent name size mtime mode uid gid now =>
      dsimp only at stepped
      split at stepped <;> rename_i found
      · split at stepped <;> rename_i onDisk
        · split at stepped <;> rename_i allowed
          · obtain rfl := Option.some.inj stepped
            obtain ⟨directory, valid, symlink⟩ := allowed
            exact sound.merges found directory valid onDisk symlink
              (careful _ found) size mtime mode uid gid now
          · cases stepped
        · cases stepped
      · cases stepped
  | inserted parent name kind mode uid gid now =>
      dsimp only at stepped
      split at stepped <;> rename_i found
      · split at stepped <;> rename_i allowed
        · obtain rfl := Option.some.inj stepped
          obtain ⟨directory, valid, symlink, free⟩ := allowed
          exact sound.inserts found directory valid symlink
            (Option.isNone_iff_eq_none.mp free) mode uid gid now
        · cases stepped
      · cases stepped
  | finished index outcome =>
      obtain ⟨node, pending, rfl⟩ := Option.map_eq_some_iff.mp stepped
      exact sound.finish pending careful

/-- In a run of careful steps, a failed call has left the disk as it was, and
every dirty inode stays on the disk. -/
theorem inStep_of_careful (ready : start.Ready) (begins : start.Begins)
    (careful : AllSteps step Careful start events)
    (run : exec step start events = some final) : InStep start final := by
  have kept := exec_invariant
    (fun _ _ _ sound careful stepped => sound_step sound careful stepped)
    (ready.sound begins) careful run
  exact kept.inStep

end

/-- The directory `d` of the disk, whose remote children are not loaded. -/
def removingShadow : OverlayRun where
  table := (InodeTable.new.insert rootInode ['d'] ['d'] .directory 0 0 none 493 0
    0 0).2.modify 2 (·.setDirty)
  backing := (⟨.empty, 0⟩ : OverlayBacking).add ['d'] .directory
  pending := []
  call := .rmdir rootInode ['d']

theorem ready_removingShadow : removingShadow.Ready := by
  have validDir : ValidName ['d'] := by decide
  have root : InodeTable.new.get rootInode = some rootEntry := rfl
  have dir := inOrder_new.insert root rfl validDir (fun _ => rfl) .directory 0 0
    none 493 0 0 0
  have onDisk : ∀ entry ∈ removingShadow.table.values, entry.isDirty = true →
      entry.kind ≠ .symlink ∧ removingShadow.backing.kindAt entry.fullPath =
        some entry.kind := by decide
  refine ⟨dir.update 2 fun _ => .of_fields rfl, nofun, List.nodup_nil, ?_⟩
  rintro ino kind path ⟨entry, found, -, dirty, rfl, rfl⟩
  obtain ⟨symlink, backed⟩ := onDisk entry (mem_values.mpr ⟨ino, found⟩) dirty
  exact ⟨symlink, fun _ _ => backed⟩

/-- Nothing is listed in between. -/
theorem inStep_of_careful_removingShadow :
    InStep removingShadow ((exec step removingShadow
      [.advance 1, .advance 2, .advance 3]).get (by decide)) := by
  have careful : AllSteps step Careful removingShadow
      [.advance 1, .advance 2, .advance 3] := by
    refine .cons trivial rfl (.cons trivial rfl (.cons ?_ rfl trivial))
    exact ⟨_, rfl, rfl⟩
  exact inStep_of_careful ready_removingShadow trivial careful
    (Option.some_get _).symm

/-- The remote has `d/x`.  The directory is off the disk by the time that rmdir
finds it not empty. -/
theorem overlay_not_inStep : ¬ ∀ (start final : OverlayRun)
    (events : List OverlayStep), start.Ready → start.Begins →
    exec step start events = some final → InStep start final := by
  intro claim
  have inStep := claim removingShadow _
    [.advance 1, .listed 2 ['x'] .file 3 0 (some ['h']) 420 0 0 0, .advance 2,
      .advance 3] ready_removingShadow trivial rfl
  have kept := inStep.failed (.table .enotempty) rfl ['d'] ⟨.directory, 0⟩ rfl
  cases kept

end OverlayRun

end HfMount.Vfs
