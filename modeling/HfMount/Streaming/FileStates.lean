import HfMount.Streaming.RenamedWrites
import HfMount.Vfs.ReferenceCounts

/-!
# What a commit leaves of a file

The dirty generation of a file and what a snapshot records of it are all that
the streaming writers change of an inode.
-/

namespace HfMount.Inode

open SlashPath Vfs

open Streaming (InodeSnapshot)

/-- The dirty generation, with what a snapshot records. -/
abbrev FileState := Nat × InodeSnapshot

def InodeEntry.fileState (entry : InodeEntry) : FileState :=
  (entry.dirtyGeneration, entry.snapshot)

namespace InodeTable

def fileState (table : InodeTable) (ino : Ino) : Option FileState :=
  (table.get ino).bind fun entry =>
    if entry.kind = .file then some entry.fileState else none

section

variable {table : InodeTable} {ino other : Ino} {entry : InodeEntry}

theorem fileState_of_get (found : table.get ino = some entry)
    (file : entry.kind = .file) :
    table.fileState ino = some entry.fileState := by
  simp [fileState, found, file]

theorem fileState_eq_some {state : FileState} :
    table.fileState ino = some state ↔
      ∃ entry, table.get ino = some entry ∧ entry.kind = .file ∧
        entry.fileState = state := by
  constructor
  · intro isState
    obtain ⟨entry, found, isFile⟩ := Option.bind_eq_some_iff.mp isState
    by_cases file : entry.kind = .file
    · rw [if_pos file] at isFile
      exact ⟨entry, found, file, Option.some.inj isFile⟩
    · rw [if_neg file] at isFile
      cases isFile
  · rintro ⟨entry, found, file, rfl⟩
    exact fileState_of_get found file

theorem fileState_of_none (missing : table.get ino = none) :
    table.fileState ino = none := by
  simp [fileState, missing]

theorem fileState_congr {after : InodeTable}
    (same : after.get ino = table.get ino) :
    after.fileState ino = table.fileState ino := by
  simp only [fileState, same]

theorem fileState_modify_of_ne (change : InodeEntry → InodeEntry)
    (distinct : other ≠ ino) :
    (table.modify ino change).fileState other = table.fileState other :=
  fileState_congr (get_modify_of_ne _ distinct change)

theorem fileState_modify_self (found : table.get ino = some entry)
    (change : InodeEntry → InodeEntry) (file : (change entry).kind = .file) :
    (table.modify ino change).fileState ino =
      some (change entry).fileState :=
  fileState_of_get (get_modify_of_found found change) file

/-- A change that no snapshot records. -/
theorem fileState_modify_same (table : InodeTable) (ino : Ino)
    {change : InodeEntry → InodeEntry}
    (kind : ∀ entry, (change entry).kind = entry.kind)
    (same : ∀ entry : InodeEntry, entry.kind = .file →
      (change entry).fileState = entry.fileState) (other : Ino) :
    (table.modify ino change).fileState other = table.fileState other := by
  by_cases here : other = ino
  · subst here
    cases found : table.get other with
    | none => rw [modify_of_none found]
    | some entry =>
        simp only [fileState, get_modify_of_found found, found,
          Option.bind_some, kind]
        split <;> rename_i file
        · rw [same entry file]
        · rfl
  · exact fileState_modify_of_ne change here

/-- A change of a directory. -/
theorem fileState_modify_directory (found : table.get ino = some entry)
    (directory : entry.kind ≠ .file) {change : InodeEntry → InodeEntry}
    (same : (change entry).kind = entry.kind) (other : Ino) :
    (table.modify ino change).fileState other = table.fileState other := by
  by_cases here : other = ino
  · subst here
    simp [fileState, get_modify_of_found found, found, same, directory]
  · exact fileState_modify_of_ne change here

end

/-- A table in which every inode has a link. -/
structure AllLinked (table : InodeTable) : Prop where
  wf : table.WellFormed
  linked : ∀ {ino entry}, table.get ino = some entry → 0 < entry.nlink

namespace AllLinked

variable {table : InodeTable} {ino : Ino} {entry : InodeEntry}

theorem similar {after : InodeTable} (linked : table.AllLinked)
    (same : Corresponding InodeEntry.SameLinks table after) :
    after.AllLinked := by
  refine ⟨linked.wf.similar same.similar, ?_⟩
  intro ino entry found
  obtain ⟨before, foundBefore, links⟩ := same.backward found
  rw [links.nlink]
  exact linked.linked foundBefore

theorem modify (linked : table.AllLinked) (ino : Ino)
    {change : InodeEntry → InodeEntry}
    (same : ∀ entry : InodeEntry, entry.SameLinks (change entry)) :
    (table.modify ino change).AllLinked :=
  linked.similar (corresponding_modify .refl table ino same)

theorem removeOrphan (linked : table.AllLinked) :
    table.removeOrphan ino = table :=
  removeOrphan_of_linked fun _ found => linked.linked found

theorem isLive (linked : table.AllLinked)
    (found : table.get ino = some entry) : entry.isLive = true := by
  have positive := linked.linked found
  simp [InodeEntry.isLive, positive]

theorem ne_root (linked : table.AllLinked) (found : table.get ino = some entry)
    (file : entry.kind = .file) : ino ≠ rootInode := by
  rintro rfl
  obtain ⟨root, foundRoot, directory, _⟩ := linked.wf.root
  obtain rfl := Option.some.inj (found.symm.trans foundRoot)
  rw [file] at directory
  cases directory

/-- Removing a file takes this file and no other. -/
theorem remove (linked : table.AllLinked) (found : table.get ino = some entry)
    (file : entry.kind = .file) :
    (table.remove ino).AllLinked ∧ (table.remove ino).fileState ino = none ∧
      ∀ other, other ≠ ino →
        (table.remove ino).fileState other = table.fileState other := by
  have notDirectory : entry.kind ≠ .directory := by simp [file]
  have leaf := linked.wf.children_of_file found notDirectory
  have removed := remove_of_leaf found leaf
  have own : ∀ target, table.pathToInode entry.fullPath = some target →
      target = ino := by
    intro target mapped
    have here := linked.wf.path.mpr
      ⟨entry, found, linked.isLive found, rfl⟩
    exact Option.some.inj (mapped.symm.trans here)
  have erased : ∀ other,
      ((table.erase ino).removePath entry.fullPath).get other =
        if other = ino then none else table.get other := by
    intro other
    rw [get_removePath, get_erase]
  have detached : ∀ other, (table.remove ino).fileState other =
      ((table.erase ino).removePath entry.fullPath).fileState other := by
    intro other
    rw [removed]
    apply fileState_modify_same
    · intro parentEntry
      simp only [InodeEntry.removeChildByIno]
      split <;> rfl
    · intro parentEntry _
      simp only [InodeEntry.removeChildByIno]
      split <;> rfl
  refine ⟨⟨linked.wf.remove found (linked.ne_root found file) own, ?_⟩, ?_, ?_⟩
  · intro other otherEntry foundOther
    rw [removed, detachFromParent, get_modify, erased] at foundOther
    split at foundOther
    · obtain ⟨before, foundBefore, rfl⟩ := Option.map_eq_some_iff.mp foundOther
      split at foundBefore
      · cases foundBefore
      have same : (before.removeChildByIno ino).nlink = before.nlink := by
        unfold InodeEntry.removeChildByIno
        split <;> rfl
      dsimp only
      rw [same]
      exact linked.linked foundBefore
    · rw [erased] at foundOther
      split at foundOther
      · cases foundOther
      · exact linked.linked foundOther
  · rw [detached]
    exact fileState_of_none (by rw [erased, if_pos rfl])
  · intro other distinct
    rw [detached]
    exact fileState_congr (by rw [erased, if_neg distinct])

/-- A new file takes no other file's place. -/
theorem insert (linked : table.AllLinked) {parent : Ino} {name : Name}
    {parentEntry : InodeEntry} (found : table.get parent = some parentEntry)
    (directory : parentEntry.kind = .directory) (valid : ValidName name)
    (free : table.lookupChild parent name = none) (size : Nat) (mtime : Time)
    (xetHash : Option Hash) (mode uid gid : Nat) (now : Time) :
    ∃ after, table.insert parent name (childPath parentEntry.fullPath name)
        .file size mtime xetHash mode uid gid now = (table.nextInode, after) ∧
      after.AllLinked ∧ table.fileState table.nextInode = none ∧
      (∃ new, after.get table.nextInode = some new ∧ new.kind = .file) ∧
      (∃ grown, after.get parent = some grown ∧ grown.kind = .directory) ∧
      ∀ other, other ≠ table.nextInode →
        after.fileState other = table.fileState other := by
  have unnamed := (linked.wf.lookupChild_none found).mp free
  obtain ⟨after, inserted, _, _, foundNew, foundParent, others⟩ :=
    insert_of_free linked.wf found directory valid unnamed .file size mtime
      xetHash mode uid gid now
  have wf := linked.wf.insert found directory valid unnamed .file size mtime
    xetHash mode uid gid now
  rw [inserted] at wf
  have grown : (grownParent parentEntry table.nextInode name .file).kind =
      .directory := directory
  have fresh : table.get table.nextInode = none := by
    cases got : table.get table.nextInode with
    | none => rfl
    | some entry => exact absurd (linked.wf.key got).2 (Nat.lt_irrefl _)
  refine ⟨after, inserted, ⟨wf, ?_⟩, fileState_of_none fresh,
    ⟨_, foundNew, rfl⟩, ⟨_, foundParent, grown⟩, ?_⟩
  · intro other entry foundOther
    by_cases isNew : other = table.nextInode
    · subst isNew
      obtain rfl := Option.some.inj (foundNew.symm.trans foundOther)
      exact Nat.one_pos
    by_cases isParent : other = parent
    · subst isParent
      obtain rfl := Option.some.inj (foundParent.symm.trans foundOther)
      have kept : 0 < parentEntry.nlink := linked.linked found
      exact kept
    · rw [others other isNew isParent] at foundOther
      exact linked.linked foundOther
  · intro other isOld
    by_cases isParent : other = parent
    · subst isParent
      simp [fileState, foundParent, grown, found, directory]
    · exact fileState_congr (others other isOld isParent)

end AllLinked

end InodeTable

end HfMount.Inode
