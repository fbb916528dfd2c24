import HfMount.Vfs.OverlayRenames

/-!
# The table and the backing in step

While no call is between the disk and the table, each dirty inode of the table
is on the disk.  What is being created is not there yet, and what is being
moved or removed is already where it will be.
-/

namespace HfMount.Vfs

open SlashPath Inode InodeTable

namespace OverlayCall

/-- Where the disk has what the table has at the path. -/
def place : OverlayCall → Path → Path
  | .renameMoved _ info, path => rebase info.oldPath info.newFullPath path
  | _, path => path

/-- The disk does not have the path any more, which the table has. -/
def removes : OverlayCall → Path → Prop
  | .rmdirRemoved _ _ fullPath, path => path = fullPath
  | _, _ => False

/-- The call is not between the disk and the table. -/
def Settled : OverlayCall → Prop
  | .rmdirRemoved _ _ _ | .renameMoved _ _ => False
  | _ => True

/-- The call has taken nothing from its place. -/
def Untouched : OverlayCall → Prop
  | .rmdirRemoved _ _ _ | .renameMoved _ _ | .returned (.ok _) => False
  | _ => True

variable {call : OverlayCall}

theorem Untouched.settled (untouched : call.Untouched) : call.Settled := by
  cases call <;> trivial

theorem Settled.place (settled : call.Settled) (path : Path) :
    call.place path = path := by
  cases call <;> first | rfl | exact settled.elim

theorem Settled.removes (settled : call.Settled) (path : Path) :
    ¬ call.removes path := by
  cases call <;> first | exact id | exact settled.elim

end OverlayCall

/-- The kernel sends valid names and renames into directories. -/
structure Addressed (table : InodeTable) (request : RenameRequest) : Prop where
  name : ValidName request.newname
  given : request.newparent < table.nextInode
  directory : ∀ entry, table.get request.newparent = some entry →
    entry.kind = .directory

/-- What a rename has found out about its source and destination. -/
structure Located (table : InodeTable) (request : RenameRequest)
    (info : RenameInfo) : Prop where
  addressed : Addressed table request
  holds : table.Holds info.ino info.oldPath
  nonempty : info.newFullPath ≠ []

namespace OverlayRun

/-- What the call has read still holds. -/
def Held (table : InodeTable) (backing : OverlayBacking) : OverlayCall → Prop
  | .rmdir _ _ | .returned _ => True
  | .rmdirChecked _ ino fullPath | .rmdirRemoved _ ino fullPath
  | .rmdirMissing _ ino fullPath => table.Holds ino fullPath
  | .rename request | .renameAllowed request | .renameLoaded request =>
      Addressed table request
  | .renameValidated request info | .renameMoved request info =>
      Located table request info
  | .renameFound request info | .renamePrepared request info =>
      Located table request info ∧
        ∃ kind, backing.kindAt info.oldPath = some kind ∧ kind ≠ .symlink

/-- No create or mkdir is on its way to the inode. -/
def Settles (run : OverlayRun) (ino : Ino) : Prop :=
  ∀ node ∈ run.pending, node.ino ≠ ino

/-- The dirty inodes are on the disk, where the disk has them by now. -/
structure Ready (run : OverlayRun) : Prop where
  order : run.table.InOrder
  awaits : ∀ node ∈ run.pending, run.table.Awaits node.ino node.kind
  distinct : (run.pending.map (·.ino)).Nodup
  backed : ∀ {ino kind path}, run.table.Marks ino kind path →
    kind ≠ .symlink ∧ (run.Settles ino → ¬ run.call.removes path →
      run.backing.kindAt (run.call.place path) = some kind)

structure Sound (start run : OverlayRun) : Prop extends Ready run where
  held : Held run.table run.backing run.call
  kept : run.call.Untouched → start.backing.dir.Grows run.backing.dir

/-- A step that the call takes no part in. -/
structure Follows (run next : OverlayRun) : Prop where
  order : next.table.InOrder
  nextInode : run.table.nextInode ≤ next.table.nextInode
  place : ∀ {ino other}, ino < run.table.nextInode →
    next.table.get ino = some other →
    ∃ entry, run.table.get ino = some entry ∧ entry.SamePlace other
  call : next.call = run.call
  grows : run.backing.dir.Grows next.backing.dir
  awaits : ∀ node ∈ next.pending, next.table.Awaits node.ino node.kind
  distinct : (next.pending.map (·.ino)).Nodup
  marks : ∀ {ino kind path}, next.table.Marks ino kind path →
    (run.table.Marks ino kind path ∧ (next.Settles ino → run.Settles ino)) ∨
      (kind ≠ .symlink ∧ (next.Settles ino →
        next.backing.kindAt (run.call.place path) = some kind))

section

variable {start run next : OverlayRun}

theorem Follows.holds (follows : run.Follows next) {ino : Ino} {path : Path}
    (holds : run.table.Holds ino path) : next.table.Holds ino path := by
  refine ⟨holds.given.trans_le follows.nextInode, holds.notRoot,
    holds.nonempty, ?_⟩
  intro other got
  obtain ⟨entry, found, place⟩ := follows.place holds.given got
  obtain ⟨live, fullPath⟩ := holds.entry entry found
  exact ⟨place.isLive.trans live, place.fullPath.trans fullPath⟩

theorem Follows.addressed (follows : run.Follows next)
    {request : RenameRequest} (addressed : Addressed run.table request) :
    Addressed next.table request := by
  refine ⟨addressed.name, addressed.given.trans_le follows.nextInode, ?_⟩
  intro other got
  obtain ⟨entry, found, place⟩ := follows.place addressed.given got
  exact place.kind.trans (addressed.directory entry found)

theorem Follows.located (follows : run.Follows next) {request : RenameRequest}
    {info : RenameInfo} (located : Located run.table request info) :
    Located next.table request info :=
  ⟨follows.addressed located.addressed, follows.holds located.holds,
    located.nonempty⟩

theorem Follows.held (follows : run.Follows next) {call : OverlayCall}
    (held : Held run.table run.backing call) :
    Held next.table next.backing call := by
  cases call with
  | rmdir | returned => trivial
  | rmdirChecked | rmdirRemoved | rmdirMissing => exact follows.holds held
  | rename | renameAllowed | renameLoaded => exact follows.addressed held
  | renameValidated | renameMoved => exact follows.located held
  | renameFound | renamePrepared =>
      obtain ⟨located, kind, found, symlink⟩ := held
      exact ⟨follows.located located, kind,
        OverlayBacking.kindAt_of_grows follows.grows found, symlink⟩

theorem Sound.follow (sound : Sound start run) (follows : run.Follows next) :
    Sound start next := by
  refine ⟨⟨follows.order, follows.awaits, follows.distinct, ?_⟩, ?_, ?_⟩
  · intro ino kind path marks
    rw [follows.call]
    rcases follows.marks marks with ⟨before, settles⟩ | ⟨symlink, backed⟩
    · obtain ⟨symlink, backed⟩ := sound.backed before
      refine ⟨symlink, fun settled stays => ?_⟩
      exact OverlayBacking.kindAt_of_grows follows.grows
        (backed (settles settled) stays)
    · exact ⟨symlink, fun settled _ => backed settled⟩
  · rw [follows.call]
    exact follows.held sound.held
  · intro untouched
    rw [follows.call] at untouched
    exact (sound.kept untouched).trans follows.grows

/-- The call goes on, and nothing else changes. -/
theorem Sound.turn (sound : Sound start run) (untouched : run.call.Untouched)
    {call : OverlayCall} (settled : call.Settled)
    (held : Held run.table run.backing call) :
    Sound start { run with call } := by
  refine ⟨⟨sound.order, sound.awaits, sound.distinct, ?_⟩, held,
    fun _ => sound.kept untouched⟩
  intro ino kind path marks
  obtain ⟨symlink, backed⟩ := sound.backed marks
  rw [untouched.settled.place] at backed
  refine ⟨symlink, fun settles _ => ?_⟩
  simp only [settled.place]
  exact backed settles (untouched.settled.removes path)

theorem Sound.fails (sound : Sound start run) (untouched : run.call.Untouched)
    (errno : CallErrno) : Sound start (run.fails errno) :=
  sound.turn untouched trivial trivial

/-! ## Changes that leave every inode in its place -/

theorem follows_of_quiet (ready : run.Ready)
    (quiet : run.table.Quiet next.table) (call : next.call = run.call)
    (grows : run.backing.dir.Grows next.backing.dir)
    (sublist : next.pending.Sublist run.pending)
    (dropped : ∀ node ∈ run.pending,
      node ∈ next.pending ∨ next.table.get node.ino = none) :
    run.Follows next := by
  refine ⟨quiet.order, quiet.nextInode, ?_, call, grows, ?_,
    ready.distinct.sublist (sublist.map _), ?_⟩
  · intro ino other given got
    obtain ⟨entry, found, same⟩ := quiet.old given got
    exact ⟨entry, found, same.toSamePlace⟩
  · intro node member
    have awaits := ready.awaits node (sublist.subset member)
    refine ⟨awaits.given.trans_le quiet.nextInode, awaits.notRoot, ?_⟩
    intro other got
    obtain ⟨entry, found, same⟩ := quiet.old awaits.given got
    obtain ⟨live, kind, closed⟩ := awaits.entry entry found
    exact ⟨same.isLive.trans live, same.kind.trans kind,
      same.handles.trans closed⟩
  · intro ino kind path marks
    refine Or.inl ⟨quiet.marks marks, fun settles node member same => ?_⟩
    rcases dropped node member with stays | gone
    · exact settles node stays same
    · obtain ⟨other, got, -⟩ := marks
      rw [same, got] at gone
      cases gone

theorem Sound.table (sound : Sound start run) {table : InodeTable}
    (quiet : run.table.Quiet table) : Sound start { run with table } :=
  sound.follow (follows_of_quiet sound.toReady quiet rfl (.refl _) (.refl _)
    fun _ => Or.inl)

theorem Sound.grows (sound : Sound start run) {backing : OverlayBacking}
    (grows : run.backing.dir.Grows backing.dir) :
    Sound start { run with backing } :=
  sound.follow (follows_of_quiet sound.toReady (.refl sound.order) rfl grows
    (.refl _) fun _ => Or.inl)

/-! ## The disk part of a create or mkdir -/

theorem makeNode_spec (backing : OverlayBacking) (node : PendingNode) :
    backing.dir.Grows (makeNode backing node).2.dir ∧
      (node.kind ≠ .symlink → (makeNode backing node).1 = none →
        (makeNode backing node).2.kindAt node.fullPath = some node.kind) := by
  have above := backing.grows_createParentDirs node.fullPath
  unfold makeNode
  split <;> rename_i parents made
  · rw [made] at above
    exact ⟨above, fun _ ok => by cases ok⟩
  · rw [made] at above
    split <;> rename_i directory
    · obtain ⟨grows, created⟩ :=
        OverlayBacking.createDir_spec _ node.fullPath
      exact ⟨above.trans grows, fun _ ok => directory ▸ created ok⟩
    · obtain ⟨grows, created⟩ :=
        OverlayBacking.openCreate_spec _ node.fullPath
      refine ⟨above.trans grows, fun symlink ok => ?_⟩
      cases kind : node.kind with
      | file => exact created ok
      | directory => exact absurd kind directory
      | symlink => exact absurd kind symlink

theorem mem_pending_erase (node : PendingNode) {other : PendingNode}
    (member : other ∈ run.pending) :
    other ∈ run.pending.erase node ∨ other = node := by
  by_cases same : other = node
  · exact Or.inr same
  · exact Or.inl ((List.mem_erase_of_ne same).mpr member)

/-- A create or mkdir that fails. -/
theorem Sound.drop (sound : Sound start run) {node : PendingNode}
    (member : node ∈ run.pending) {backing : OverlayBacking}
    (grows : run.backing.dir.Grows backing.dir) :
    Sound start { run with
      table := run.table.remove node.ino
      backing
      pending := run.pending.erase node } := by
  obtain ⟨quiet, gone⟩ := (sound.awaits node member).remove sound.order
  refine sound.follow (follows_of_quiet sound.toReady quiet rfl grows
    List.erase_sublist ?_)
  intro other present
  rcases mem_pending_erase node present with stays | rfl
  · exact Or.inl stays
  · exact Or.inr gone

theorem nextInode_opened (run : OverlayRun) (node : PendingNode) :
    (run.opened node).nextInode = run.table.nextInode := by
  unfold opened
  split
  · exact nextInode_modify _ _ _
  · rfl

theorem inOrder_opened (order : run.table.InOrder) (node : PendingNode) :
    (run.opened node).InOrder := by
  unfold opened
  split
  · exact order.update node.ino fun _ => .of_fields rfl
  · exact order

theorem get_opened {node : PendingNode} {ino : Ino} {other : InodeEntry}
    (got : (run.opened node).get ino = some other) :
    ∃ entry, run.table.get ino = some entry ∧ entry.SamePlace other ∧
      other.isDirty = entry.isDirty ∧
      (ino ≠ node.ino →
        other.eviction.openHandles = entry.eviction.openHandles) := by
  unfold opened at got
  split at got
  · rw [bumpOpenHandles, get_modify] at got
    split at got <;> rename_i here
    · obtain ⟨entry, found, rfl⟩ := Option.map_eq_some_iff.mp got
      exact ⟨entry, here ▸ found, ⟨rfl, rfl, rfl, rfl, rfl, fun _ => rfl⟩, rfl,
        fun different => absurd here different⟩
    · exact ⟨other, got, .refl other, rfl, fun _ => rfl⟩
  · exact ⟨other, got, .refl other, rfl, fun _ => rfl⟩

/-- A file or directory that is made where the table has it. -/
theorem Sound.made (sound : Sound start run) {node : PendingNode}
    (member : node ∈ run.pending)
    (made : (makeNode run.backing node).1 = none)
    (stayed : ∀ entry, run.table.get node.ino = some entry →
      entry.fullPath = node.fullPath ∧
        run.call.place node.fullPath = node.fullPath) :
    Sound start { run with
      table := run.opened node
      backing := (makeNode run.backing node).2
      pending := run.pending.erase node } := by
  obtain ⟨grows, created⟩ := makeNode_spec run.backing node
  refine sound.follow ⟨inOrder_opened sound.order node,
    (nextInode_opened run node).ge, ?_, rfl, grows, ?_,
    sound.distinct.sublist (List.erase_sublist.map _), ?_⟩
  · intro ino other _ got
    obtain ⟨entry, found, place, -⟩ := get_opened got
    exact ⟨entry, found, place⟩
  · intro other present
    have awaits := sound.awaits other (List.mem_of_mem_erase present)
    have different : other.ino ≠ node.ino := by
      intro same
      obtain rfl := List.inj_on_of_nodup_map sound.distinct
        (List.mem_of_mem_erase present) member same
      exact (List.Nodup.of_map _ sound.distinct).not_mem_erase present
    refine ⟨(nextInode_opened run node).symm ▸ awaits.given, awaits.notRoot, ?_⟩
    intro entry got
    obtain ⟨before, found, place, -, handles⟩ := get_opened got
    obtain ⟨live, kind, closed⟩ := awaits.entry before found
    exact ⟨place.isLive.trans live, place.kind.trans kind,
      (handles different).trans closed⟩
  · rintro ino kind path ⟨other, got, live, dirty, rfl, rfl⟩
    obtain ⟨entry, found, place, sameDirty, -⟩ := get_opened got
    have marks : run.table.Marks ino other.kind other.fullPath :=
      ⟨entry, found, place.isLive.symm.trans live,
        sameDirty.symm.trans dirty, place.kind.symm, place.fullPath.symm⟩
    by_cases own : ino = node.ino
    · subst own
      -- the inode leaves the list, and is on the disk from now on
      obtain ⟨fullPath, placed⟩ := stayed entry found
      have kind : other.kind = node.kind :=
        place.kind.trans ((sound.awaits node member).entry entry found).2.1
      have symlink := (sound.backed marks).1
      refine Or.inr ⟨symlink, fun _ => ?_⟩
      rw [place.fullPath, fullPath, placed, kind]
      exact created (kind ▸ symlink) made
    · refine Or.inl ⟨marks, fun settles present isPending same => ?_⟩
      rcases mem_pending_erase node isPending with stays | rfl
      · exact settles present stays same
      · exact own same.symm

end

end OverlayRun

end HfMount.Vfs
