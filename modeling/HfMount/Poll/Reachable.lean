import HfMount.Poll.DirtyFiles

/-!
# Reachable inode tables

The tables that the file operations, evictions, polls and the live feed can
produce.  Open files that were unlinked stay as orphans, and a new file may
take their name.  In every such table the remote changes leave every dirty
inode as it is, unless a poll deletes a file whose name or path has passed to
the dirty inode.
-/

namespace HfMount.Poll

open SlashPath Inode

/-- No file that the poll deletes has passed its name or path on. -/
def DeletesOwn (remoteEntries : List TreeEntry) (polledPrefixes : List Path)
    (table : InodeTable) : Prop :=
  ∀ ino ∈ pollDeletions remoteEntries polledPrefixes table,
    ∀ target, deletionTarget table ino = some target → target = ino

/-- The tables of all runs whose polls so far deleted only what they named. -/
inductive Reachable : InodeTable → Prop
  | new : Reachable .new
  /-- create, mkdir, symlink, link, or an entry that a listing brought. -/
  | insert {table : InodeTable} {parent : Ino} {parentEntry : InodeEntry}
      {name : Name} (kind : InodeKind) (size : Nat) (mtime : Time)
      (xetHash : Option Hash) (mode uid gid : Nat) (now : Time) :
      Reachable table → table.get parent = some parentEntry →
      parentEntry.kind = .directory → ValidName name →
      parentEntry.childIndex name = none →
      Reachable (table.insert parent name
        (childPath parentEntry.fullPath name) kind size mtime xetHash mode uid
        gid now).2
  /-- open, write, truncate, commit, close, setattr, revalidate. -/
  | modify {table : InodeTable} (ino : Ino)
      {change : InodeEntry → InodeEntry} :
      Reachable table →
      (∀ entry : InodeEntry, entry.SameNode (change entry)) →
      Reachable (table.modify ino change)
  | unlink {table : InodeTable} {parent : Ino} {name : Name}
      {entry : InodeEntry} (now : Time) :
      Reachable table → table.lookupChild parent name = some entry →
      entry.kind ≠ .directory → Reachable (table.unlinkOne parent name now).2
  | removeOrphan {table : InodeTable} {ino : Ino} {entry : InodeEntry} :
      Reachable table → table.get ino = some entry →
      entry.kind ≠ .directory → entry.nlink = 0 →
      Reachable (table.removeOrphan ino)
  /-- rmdir, stale entries of a listing, a file that a lookup found deleted. -/
  | remove {table : InodeTable} {ino : Ino} {entry : InodeEntry} :
      Reachable table → table.get ino = some entry → ino ≠ rootInode →
      entry.isLive = true → Reachable (table.remove ino)
  | evict {table : InodeTable} (ino : Ino) :
      Reachable table → Reachable (table.evictIfSafe ino).2
  | rename {table : InodeTable} {ino newParent : Ino} {newName : Name}
      {entry newEntry : InodeEntry} :
      Reachable table → table.get ino = some entry → ino ≠ rootInode →
      entry.isLive = true → table.Destination ino newParent newName newEntry →
      Reachable (table.relocate ino entry.parent entry.name entry.fullPath
        newParent newName (childPath newEntry.fullPath newName))
  | poll {state : PollState} (remoteEntries : List TreeEntry)
      (polledPrefixes : List Path) (now : Time) :
      Reachable state.table →
      DeletesOwn remoteEntries polledPrefixes state.table →
      Reachable (applyPollDiff remoteEntries polledPrefixes now state).table
  | follow {state : PollState} (changes : List FollowChange) (now : Time) :
      Reachable state.table →
      Reachable (applyFollowChanges changes now state).table

theorem Reachable.wellFormed {table : InodeTable}
    (reachable : Reachable table) : table.WellFormed := by
  induction reachable with
  | new => exact InodeTable.wellFormed_new
  | insert kind size mtime xetHash mode uid gid now _ found directory valid
      free wf =>
      exact wf.insert found directory valid free kind size mtime xetHash mode
        uid gid now
  | modify ino _ same wf =>
      exact wf.similar (InodeTable.similar_modify _ ino same)
  | unlink now _ looked file wf =>
      exact wf.pruned (InodeTable.pruned_unlinkOne wf looked file now)
  | removeOrphan _ found file orphan wf =>
      exact wf.pruned
        (InodeTable.pruned_removeOrphan wf found file orphan).2
  | remove _ found notRoot live wf =>
      exact wf.pruned (InodeTable.pruned_remove wf found notRoot live)
  | evict ino _ wf => exact wf.evictIfSafe ino
  | rename _ found notRoot live destination wf =>
      exact wf.moved found notRoot live destination
        (InodeTable.moved_relocate wf found notRoot live destination)
  | poll remoteEntries polledPrefixes now _ own wf =>
      exact wellFormed_applyPollDiff wf remoteEntries polledPrefixes now own
  | follow changes now _ wf => exact (applyFollowChanges_keeps wf changes now).1

theorem Reachable.insert_root {table : InodeTable} {name : Name}
    (valid : ValidName name) (reachable : Reachable table)
    (free : slot table rootInode name = none) (kind : InodeKind) (size : Nat)
    (mtime : Time) (xetHash : Option Hash) (mode uid gid : Nat) (now : Time) :
    Reachable (table.insert rootInode name name kind size mtime xetHash mode
      uid gid now).2 := by
  obtain ⟨entry, found, directory, root⟩ := reachable.wellFormed.root
  have unnamed : entry.childIndex name = none := by
    unfold slot at free
    rwa [found, Option.bind_some] at free
  have inserted := reachable.insert kind size mtime xetHash mode uid gid now
    found directory valid unnamed
  rwa [root, childPath_nil] at inserted

/-- The live feed leaves every dirty inode untouched; a poll does so exactly
when no file that it deletes has a dirty inode under its name or path. -/
theorem dirty_untouched_iff {state : PollState}
    (reachable : Reachable state.table) (remoteEntries : List TreeEntry)
    (polledPrefixes : List Path) (changes : List FollowChange) (now : Time) :
    ((∀ ino entry, state.table.get ino = some entry → entry.isDirty = true →
        Untouched state.table
          (applyPollDiff remoteEntries polledPrefixes now state).table ino) ↔
      ∀ other ∈ pollDeletions remoteEntries polledPrefixes state.table,
        ∀ ino entry, state.table.get ino = some entry →
          entry.isDirty = true → deletionTarget state.table other ≠ some ino) ∧
    ∀ ino entry, state.table.get ino = some entry → entry.isDirty = true →
      Untouched state.table (applyFollowChanges changes now state).table
        ino := by
  have wf := reachable.wellFormed
  refine ⟨?_, (applyFollowChanges_keeps wf changes now).2⟩
  constructor
  · intro untouched other listed ino entry found dirty
    have each := untouched_applyPollDiff_iff wf remoteEntries polledPrefixes
      now found dirty
    exact each.mp (untouched ino entry found dirty) other listed
  · intro spared ino entry found dirty
    have each := untouched_applyPollDiff_iff wf remoteEntries polledPrefixes
      now found dirty
    exact each.mpr fun other listed =>
      spared other listed ino entry found dirty

/-- A file `a` was unlinked while open, and created again and written; a clean
file `b` is beside it. -/
def recreated : InodeTable :=
  let first := (InodeTable.new.insert rootInode ['a'] ['a'] .file 3 0
    (some ['h']) 420 0 0 0).2
  let unlinked := ((first.bumpOpenHandles 2).unlinkOne rootInode ['a'] 0).2
  let again := (unlinked.insert rootInode ['a'] ['a'] .file 0 0 none 420 0 0
    0).2
  ((again.modify 3 (·.setDirty)).insert rootInode ['b'] ['b'] .file 5 0
    (some ['k']) 420 0 0 0).2

theorem reachable_recreated : Reachable recreated := by
  refine .insert_root (by decide) ?_ rfl .file 5 0 (some ['k']) 420 0 0 0
  refine .modify 3 ?_ fun _ => .of_fields rfl
  refine .insert_root (by decide) ?_ rfl .file 0 0 none 420 0 0 0
  refine .unlink 0 ?_ rfl (by decide)
  refine .modify 2 ?_ fun _ => .of_fields rfl
  exact .insert_root (by decide) .new rfl .file 3 0 (some ['h']) 420 0 0 0

/-- The state of a poll on that table. -/
def recreatedState : PollState :=
  { table := recreated
    negativeCache := fun _ => none
    invalidated := [] }

/-- A poll that finds `a` unchanged and `b` deleted leaves the dirty `a`. -/
theorem dirty_untouched_iff_recreated :
    Untouched recreated
      (applyPollDiff [⟨['a'], .file, some 3, some ['h'], none, none⟩] [[]] 0
        recreatedState).table 3 := by
  have reachable : Reachable recreatedState.table := reachable_recreated
  refine (dirty_untouched_iff reachable _ _ [] 0).1.mpr ?_ 3 _ rfl rfl
  have deleted : pollDeletions
      [⟨['a'], .file, some 3, some ['h'], none, none⟩] [[]]
      recreatedState.table = [4] := by decide
  have own : deletionTarget recreatedState.table 4 = some 4 := by decide
  rw [deleted]
  intro other listed ino entry found dirty hit
  obtain rfl := List.mem_singleton.mp listed
  rw [own] at hit
  obtain rfl := Option.some.inj hit
  obtain rfl := Option.some.inj ((show recreatedState.table.get 4 = some _ from
    rfl).symm.trans found)
  cases dirty

/-- A poll whose listing lacks `a` takes the name from the dirty `a`. -/
theorem dirty_not_untouched : ¬ ∀ (state : PollState),
    Reachable state.table → ∀ (remoteEntries : List TreeEntry)
      (polledPrefixes : List Path) (now : Time) (ino : Ino)
      (entry : InodeEntry), state.table.get ino = some entry →
      entry.isDirty = true →
      Untouched state.table
        (applyPollDiff remoteEntries polledPrefixes now state).table ino := by
  intro untouched
  have kept := untouched recreatedState reachable_recreated [] [[]] 0 3 _ rfl rfl
  have named : slot recreatedState.table rootInode ['a'] = some 3 := by decide
  have lost : slot (applyPollDiff [] [[]] 0 recreatedState).table rootInode
      ['a'] = none := by decide
  rw [← kept.slot, lost] at named
  cases named

end HfMount.Poll
