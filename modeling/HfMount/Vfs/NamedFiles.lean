import HfMount.Vfs.Handles
import HfMount.Vfs.RenameRuns

/-!
# Files and their names

What each operation does to the entry that a directory has for a file, to the
path of the file, and to the inodes without links.
-/

namespace HfMount.Inode

open SlashPath Poll

namespace InodeTable

/-- The directory has the name for the inode, which is no directory itself. -/
structure NamesFile (table : InodeTable) (dir : Ino) (name : Name) (ino : Ino) :
    Prop where
  child : table.HasChild dir name ino
  file : ∀ entry, table.get ino = some entry → entry.kind ≠ .directory

def HasPath (table : InodeTable) (ino : Ino) (path : Path) : Prop :=
  ∃ entry, table.get ino = some entry ∧ entry.fullPath = path

/-- An inode without links that is there afterwards is open, or was there
before without links and handles. -/
def InheritsOrphans (before after : InodeTable) : Prop :=
  ∀ ino other, after.get ino = some other → other.nlink = 0 →
    0 < other.eviction.openHandles ∨ ∃ entry, before.get ino = some entry ∧
      entry.nlink = 0 ∧ entry.eviction.openHandles = 0

section

variable {table after : InodeTable} {dir ino : Ino} {name : Name}

theorem WellFormed.namesFile_of_lookup (wf : table.WellFormed)
    {entry : InodeEntry} (looked : table.lookupChild dir name = some entry)
    (file : entry.kind ≠ .directory) : table.NamesFile dir name entry.inode := by
  obtain ⟨dirEntry, found, listed, isChild⟩ := wf.lookupChild.mp looked
  refine ⟨⟨dirEntry, found, listed⟩, ?_⟩
  intro other foundOther
  obtain rfl := Option.some.inj (isChild.found.symm.trans foundOther)
  exact file

/-- The lookup of the name finds the live file. -/
theorem NamesFile.lookup (names : table.NamesFile dir name ino)
    (wf : table.WellFormed) : ∃ entry, table.lookupChild dir name = some entry ∧
      table.get ino = some entry ∧ entry.inode = ino ∧
      entry.kind ≠ .directory ∧ entry.isLive = true ∧ entry.parent = dir ∧
      entry.name = name := by
  obtain ⟨dirEntry, found, listed⟩ := names.child
  obtain ⟨entry, isChild⟩ := wf.child found listed
  have key : entry.inode = ino := (wf.key isChild.found).1
  have file := names.file entry isChild.found
  refine ⟨entry, wf.lookupChild.mpr ⟨dirEntry, found, ?_, ?_⟩, isChild.found,
    key, file, isChild.live, isChild.parent, isChild.name⟩
  · rw [key]
    exact listed
  · rw [key]
    exact isChild

/-- One file has one name. -/
theorem NamesFile.unique (names : table.NamesFile dir name ino)
    (wf : table.WellFormed) {otherDir : Ino} {otherName : Name}
    (other : table.HasChild otherDir otherName ino) :
    otherDir = dir ∧ otherName = name := by
  obtain ⟨entry, _, found, _, _, _, parent, sameName⟩ := names.lookup wf
  obtain ⟨dirEntry, foundDir, listed⟩ := other
  obtain ⟨again, isChild⟩ := wf.child foundDir listed
  obtain rfl := Option.some.inj (found.symm.trans isChild.found)
  exact ⟨isChild.parent.symm.trans parent, isChild.name.symm.trans sameName⟩

theorem NamesFile.of_tapers (names : table.NamesFile dir name ino)
    (tapers : table.Tapers after) (child : after.HasChild dir name ino) :
    after.NamesFile dir name ino := by
  refine ⟨child, ?_⟩
  intro other found
  obtain ⟨entry, foundEntry, same, _⟩ := tapers.entry found
  rw [same.kind]
  exact names.file entry foundEntry

/-- A directory always has a link. -/
theorem InOrder.file_of_orphan (order : table.InOrder) {entry : InodeEntry}
    (found : table.get ino = some entry) (noLinks : entry.nlink = 0) :
    entry.kind ≠ .directory := by
  intro directory
  have live := InodeEntry.isLive_of_directory directory
  have links := (order.live_of_nlink found).mp live
  omega

/-! ## Inodes that leave the tree -/

variable {gone : Ino → Prop}

/-- The child entries that stay are those of the inodes that stay. -/
theorem Pruned.hasChild_iff (pruned : table.Pruned after gone) :
    after.HasChild dir name ino ↔ table.HasChild dir name ino ∧ ¬ gone ino := by
  constructor
  · intro child
    obtain ⟨other, foundOther, listed⟩ := child
    obtain ⟨entry, found, whenGone⟩ := pruned.source foundOther
    have stays : ¬ gone dir := by
      intro isGone
      obtain ⟨_, _, _, empty⟩ := whenGone isGone
      rw [empty] at listed
      cases listed
    obtain ⟨kept, foundKept, _, _, _, children⟩ := pruned.kept stays found
    obtain rfl := Option.some.inj (foundKept.symm.trans foundOther)
    obtain ⟨before, childStays⟩ := (children _).mp listed
    exact ⟨⟨entry, found, before⟩, childStays⟩
  · intro both
    obtain ⟨⟨entry, found, listed⟩, stays⟩ := both
    have dirStays : ¬ gone dir :=
      fun isGone => stays (pruned.closed isGone found listed)
    obtain ⟨kept, foundKept, _, _, _, children⟩ := pruned.kept dirStays found
    exact ⟨kept, foundKept, (children _).mpr ⟨listed, stays⟩⟩

theorem Pruned.namesFile (pruned : table.Pruned after gone)
    (names : table.NamesFile dir name ino) (stays : ¬ gone ino) :
    after.NamesFile dir name ino := by
  refine ⟨pruned.hasChild_iff.mpr ⟨names.child, stays⟩, ?_⟩
  intro other foundOther
  obtain ⟨entry, found, _⟩ := pruned.source foundOther
  obtain ⟨kept, foundKept, same, _⟩ := pruned.kept stays found
  obtain rfl := Option.some.inj (foundKept.symm.trans foundOther)
  rw [same.kind]
  exact names.file entry found

theorem Pruned.hasPath (pruned : table.Pruned after gone) {path : Path}
    (at_path : table.HasPath ino path) (stays : ¬ gone ino) :
    after.HasPath ino path := by
  obtain ⟨entry, found, fullPath⟩ := at_path
  obtain ⟨kept, foundKept, same, _⟩ := pruned.kept stays found
  exact ⟨kept, foundKept, same.fullPath.trans fullPath⟩

/-- An inode that stays has the links and handles that it had. -/
theorem Pruned.orphan_source (pruned : table.Pruned after gone)
    (order : after.InOrder) (handles : table.KeepsHandles after)
    (stays : ¬ gone ino) {other : InodeEntry}
    (foundOther : after.get ino = some other) (noLinks : other.nlink = 0) :
    0 < other.eviction.openHandles ∨ ∃ entry, table.get ino = some entry ∧
      entry.nlink = 0 ∧ entry.eviction.openHandles = 0 := by
  obtain ⟨entry, found, same⟩ := handles.entry foundOther
  obtain ⟨kept, foundKept, place, _⟩ := pruned.kept stays found
  obtain rfl := Option.some.inj (foundKept.symm.trans foundOther)
  have file : entry.kind ≠ .directory := by
    rw [← place.kind]
    exact order.file_of_orphan foundOther noLinks
  have links := place.links file
  rw [same]
  rcases Nat.eq_zero_or_pos entry.eviction.openHandles with closed | opened
  · exact Or.inr ⟨entry, found, links.symm.trans noLinks, closed⟩
  · exact Or.inl opened

theorem Pruned.inherits (pruned : table.Pruned after gone)
    (order : after.InOrder) (handles : table.KeepsHandles after)
    (open_gone : ∀ ino other, gone ino → after.get ino = some other →
      0 < other.eviction.openHandles) : table.InheritsOrphans after := by
  intro ino other foundOther noLinks
  by_cases isGone : gone ino
  · exact Or.inl (open_gone ino other isGone foundOther)
  · exact pruned.orphan_source order handles isGone foundOther noLinks

/-! ## Changes of fields -/

theorem NamesFile.modify (names : table.NamesFile dir name ino) (target : Ino)
    {change : InodeEntry → InodeEntry}
    (same : ∀ entry : InodeEntry, entry.SameLinks (change entry)) :
    (table.modify target change).NamesFile dir name ino := by
  have similar := similar_modify table target fun entry =>
    (same entry).toSameNode
  refine ⟨(hasChild_of_similar similar).mpr names.child, ?_⟩
  intro other found
  obtain ⟨entry, foundEntry, sameNode⟩ := similar.backward found
  rw [sameNode.kind]
  exact names.file entry foundEntry

theorem HasPath.modify {path : Path} (at_path : table.HasPath ino path)
    (target : Ino) {change : InodeEntry → InodeEntry}
    (same : ∀ entry : InodeEntry, entry.SameLinks (change entry)) :
    (table.modify target change).HasPath ino path := by
  have similar := similar_modify table target fun entry =>
    (same entry).toSameNode
  obtain ⟨entry, found, fullPath⟩ := at_path
  obtain ⟨other, foundOther, sameNode⟩ := similar.forward found
  exact ⟨other, foundOther, sameNode.fullPath.trans fullPath⟩

theorem inherits_modify (table : InodeTable) (target : Ino)
    {change : InodeEntry → InodeEntry}
    (same : ∀ entry : InodeEntry, entry.SameLinks (change entry))
    (handles : ∀ entry : InodeEntry,
      entry.eviction.openHandles ≤ (change entry).eviction.openHandles) :
    table.InheritsOrphans (table.modify target change) := by
  intro ino other found noLinks
  rw [get_modify] at found
  split at found
  · obtain ⟨entry, foundEntry, rfl⟩ := Option.map_eq_some_iff.mp found
    have before := handles entry
    rcases Nat.eq_zero_or_pos entry.eviction.openHandles with closed | opened
    · rename_i here
      subst here
      exact Or.inr ⟨entry, foundEntry, (same entry).nlink.symm.trans noLinks,
        closed⟩
    · exact Or.inl (Nat.lt_of_lt_of_le opened before)
  · rcases Nat.eq_zero_or_pos other.eviction.openHandles with closed | opened
    · exact Or.inr ⟨other, found, noLinks, closed⟩
    · exact Or.inl opened

theorem InheritsOrphans.refl (table : InodeTable) :
    table.InheritsOrphans table := by
  intro ino other found noLinks
  rcases Nat.eq_zero_or_pos other.eviction.openHandles with closed | opened
  · exact Or.inr ⟨other, found, noLinks, closed⟩
  · exact Or.inl opened

theorem InheritsOrphans.trans {first second third : InodeTable}
    (left : first.InheritsOrphans second)
    (right : second.InheritsOrphans third) : first.InheritsOrphans third := by
  intro ino last found noLinks
  rcases right ino last found noLinks with opened |
    ⟨middle, foundMiddle, middleLinks, closed⟩
  · exact Or.inl opened
  · rcases left ino middle foundMiddle middleLinks with opened | before
    · omega
    · exact Or.inr before

end

/-! ## Inserting -/

section

variable {table after : InodeTable} {parent : Ino} {newName : Name}
  {fullPath : Path} {kind : InodeKind} {size : Nat} {mtime : Time}
  {xetHash : Option Hash} {mode uid gid : Nat} {now : Time}
  {parentEntry : InodeEntry}

/-- What is there stays, and a directory may get another child. -/
theorem insert_keeps (wf : table.WellFormed)
    (found : table.get parent = some parentEntry)
    (directory : parentEntry.kind = .directory)
    (inserted : (table.insert parent newName fullPath kind size mtime xetHash
      mode uid gid now).2 = after) {ino : Ino} {entry : InodeEntry}
    (foundEntry : table.get ino = some entry) :
    ∃ other, after.get ino = some other ∧ other.fullPath = entry.fullPath ∧
      other.kind = entry.kind ∧ (∀ child ∈ entry.children,
        child ∈ other.children) ∧
      other.eviction = entry.eviction ∧
      (entry.kind ≠ .directory → other.nlink = entry.nlink) := by
  rw [← inserted]
  cases mapped : table.pathToInode fullPath with
  | some existing =>
      simp only [InodeTable.insert, mapped]
      rw [get_modify]
      split <;> rename_i here
      · subst here
        rw [foundEntry]
        exact ⟨_, rfl, rfl, rfl, fun _ listed => listed, rfl, fun _ => rfl⟩
      · exact ⟨entry, foundEntry, rfl, rfl, fun _ listed => listed, rfl,
          fun _ => rfl⟩
  | none =>
      have old : ino ≠ table.nextInode := Nat.ne_of_lt (wf.key foundEntry).2
      simp only [InodeTable.insert, mapped]
      rw [get_modify]
      split <;> rename_i here
      · subst here
        have kept : (AList.insert table.nextInode (InodeEntry.new
            table.nextInode ino newName fullPath kind size mtime xetHash mode
            uid gid now table.touchCounter) table.inodes).lookup ino =
              some entry := (AList.lookup_insert_ne old).trans foundEntry
        refine ⟨_, congrArg (Option.map _) kept, rfl, rfl, ?_, rfl, ?_⟩
        · intro child listed
          exact InodeEntry.mem_addChild.mpr (Or.inl listed)
        · intro file
          obtain rfl := Option.some.inj (foundEntry.symm.trans found)
          exact absurd directory file
      · exact ⟨entry, (AList.lookup_insert_ne old).trans foundEntry, rfl, rfl,
          fun _ listed => listed, rfl, fun _ => rfl⟩

/-- The new inode has a link. -/
theorem insert_source (found : table.get parent = some parentEntry)
    (inserted : (table.insert parent newName fullPath kind size mtime xetHash
      mode uid gid now).2 = after) {ino : Ino} {other : InodeEntry}
    (foundOther : after.get ino = some other) :
    (∃ entry, table.get ino = some entry) ∨ 0 < other.nlink := by
  by_cases known : ∃ entry, table.get ino = some entry
  · exact Or.inl known
  right
  have missing : table.get ino = none := by
    cases got : table.get ino with
    | none => rfl
    | some entry => exact absurd ⟨entry, got⟩ known
  rw [← inserted] at foundOther
  cases mapped : table.pathToInode fullPath with
  | some existing =>
      simp only [InodeTable.insert, mapped] at foundOther
      rw [get_modify] at foundOther
      split at foundOther <;> rename_i here
      · subst here
        rw [missing] at foundOther
        cases foundOther
      · rw [missing] at foundOther
        cases foundOther
  | none =>
      simp only [InodeTable.insert, mapped] at foundOther
      have notParent : ino ≠ parent := by
        intro same
        rw [← same, missing] at found
        cases found
      rw [get_modify_of_ne _ notParent] at foundOther
      by_cases isNew : ino = table.nextInode
      · subst isNew
        have same := (AList.lookup_insert _).symm.trans foundOther
        obtain rfl := Option.some.inj same
        cases kind <;> simp [InodeEntry.new]
      · have same := (AList.lookup_insert_ne isNew).symm.trans foundOther
        rw [InodeTable.get] at missing
        rw [missing] at same
        cases same

theorem NamesFile.insert {dir ino : Ino} {name : Name}
    (names : table.NamesFile dir name ino) (wf : table.WellFormed)
    (found : table.get parent = some parentEntry)
    (directory : parentEntry.kind = .directory)
    (inserted : (table.insert parent newName fullPath kind size mtime xetHash
      mode uid gid now).2 = after) : after.NamesFile dir name ino := by
  obtain ⟨entry, _, foundEntry, _⟩ := names.lookup wf
  obtain ⟨dirEntry, foundDir, listed⟩ := names.child
  obtain ⟨grown, foundGrown, _, _, children, _⟩ :=
    insert_keeps wf found directory inserted foundDir
  refine ⟨⟨grown, foundGrown, children _ listed⟩, ?_⟩
  intro other foundOther
  obtain ⟨kept, foundKept, _, sameKind, _⟩ :=
    insert_keeps wf found directory inserted foundEntry
  obtain rfl := Option.some.inj (foundKept.symm.trans foundOther)
  rw [sameKind]
  exact names.file entry foundEntry

theorem HasPath.insert {ino : Ino} {path : Path}
    (at_path : table.HasPath ino path) (wf : table.WellFormed)
    (found : table.get parent = some parentEntry)
    (directory : parentEntry.kind = .directory)
    (inserted : (table.insert parent newName fullPath kind size mtime xetHash
      mode uid gid now).2 = after) : after.HasPath ino path := by
  obtain ⟨entry, foundEntry, samePath⟩ := at_path
  obtain ⟨kept, foundKept, keptPath, _⟩ :=
    insert_keeps wf found directory inserted foundEntry
  exact ⟨kept, foundKept, keptPath.trans samePath⟩

theorem inherits_insert (wf : table.WellFormed) (order : after.InOrder)
    (found : table.get parent = some parentEntry)
    (directory : parentEntry.kind = .directory)
    (inserted : (table.insert parent newName fullPath kind size mtime xetHash
      mode uid gid now).2 = after) : table.InheritsOrphans after := by
  intro ino other foundOther noLinks
  rcases insert_source found inserted foundOther with ⟨entry, known⟩ | links
  · obtain ⟨kept, foundKept, _, sameKind, _, handles, sameLinks⟩ :=
      insert_keeps wf found directory inserted known
    obtain rfl := Option.some.inj (foundKept.symm.trans foundOther)
    have file : entry.kind ≠ .directory := by
      rw [← sameKind]
      exact order.file_of_orphan foundOther noLinks
    rw [handles]
    rcases Nat.eq_zero_or_pos entry.eviction.openHandles with closed | opened
    · exact Or.inr ⟨entry, known, (sameLinks file).symm.trans noLinks, closed⟩
    · exact Or.inl opened
  · omega

end

/-! ## Renaming -/

section

variable {table after : InodeTable} {info : RenameInfo}
  {request : RenameRequest} {now : Time} {dir ino : Ino} {name : Name}

/-- A rename that fits changes nothing, or goes through. -/
theorem rename_cases (order : table.InOrder)
    (fits : table.Fits (.renameApplyLocal info request now))
    (applied : table.applyOp (.renameApplyLocal info request now) =
      some after) :
    after = table ∨ ∃ dropped,
      table.renameApplyLocal info request now = .ok (dropped, after) ∧
      table.Tapers after ∧ Applied table info request now dropped after := by
  simp only [InodeTable.applyOp, Option.ite_none_right_eq_some,
    Bool.and_eq_true, decide_eq_true_eq] at applied
  obtain ⟨⟨directory, valid⟩, applied⟩ := applied
  split at applied
  · rename_i dropped moved result
    obtain rfl := Option.some.inj applied
    have isDirectory : ∀ entry, table.get request.newparent = some entry →
        entry.kind = .directory := by
      intro entry found
      rw [found] at directory
      exact of_decide_eq_true directory
    cases moves : table.renameMoves info request with
    | false => exact Or.inl (renameApplyLocal_of_not_moves moves result)
    | true =>
        obtain ⟨src, newParentEntry, current⟩ :=
          current_of_fits isDirectory valid (fits moves)
        exact Or.inr ⟨dropped, result,
          tapers_renameApplyLocal isDirectory result,
          current.applied order.wf result⟩
  · exact Or.inl (Option.some.inj applied).symm

/-- A name that is neither the source nor the destination stays. -/
theorem NamesFile.rename (names : table.NamesFile dir name ino)
    (order : table.InOrder)
    (fits : table.Fits (.renameApplyLocal info request now))
    (applied : table.applyOp (.renameApplyLocal info request now) =
      some after)
    (notSource : ¬ (request.parent = dir ∧ request.name = name))
    (notDestination : ¬ (request.newparent = dir ∧ request.newname = name)) :
    after.NamesFile dir name ino := by
  rcases rename_cases order fits applied with rfl | ⟨dropped, _, tapers, moved⟩
  · exact names
  · apply names.of_tapers tapers
    by_contra lost
    rcases moved.onlyRenamed order.wf dir name ino names.child lost with
      ⟨sameDir, sameName, _⟩ | ⟨sameDir, sameName⟩
    · exact notSource ⟨sameDir.symm, sameName.symm⟩
    · exact notDestination ⟨sameDir.symm, sameName.symm⟩

/-- Moving the source leaves what is not within its path where it is. -/
theorem Movable.hasPath {entry newEntry : InodeEntry} {path : Path}
    (movable : table.Movable info request entry newEntry)
    (wf : table.WellFormed) (now : Time) (at_path : table.HasPath ino path)
    (apart : ¬ Within entry.fullPath path) :
    (table.moveRenamed info request now).HasPath ino path := by
  obtain ⟨_, recorded, moved, recordedDef, _, _, isMoved, result⟩ :=
    movable.moveRenamed wf now
  have similar : table.Similar recorded :=
    (recordedDef ▸ table.owing_record info : Corresponding InodeEntry.Owing
      table recorded).mono fun _ _ same => same.sameNode
  obtain ⟨lowerEntry, found, fullPath⟩ := at_path
  obtain ⟨noted, foundNoted, sameNoted⟩ := similar.forward found
  have outside : ¬ recorded.Below info.ino ino := by
    rw [Corresponding.below similar]
    intro below
    have nonempty := wf.path_ne_nil movable.found movable.notRoot movable.live
    apply apart
    rw [← fullPath]
    exact wf.below_within movable.found nonempty below found
  obtain ⟨target, foundTarget, _, _, elsewhere⟩ := isMoved.kept foundNoted
  obtain ⟨last, foundLast, sameLast⟩ :=
    (similar_touchRenamed moved info request now).forward foundTarget
  rw [result]
  refine ⟨last, foundLast, ?_⟩
  rw [sameLast.fullPath, elsewhere outside, sameNoted.fullPath, fullPath]

theorem HasPath.rename {path : Path} (at_path : table.HasPath ino path)
    (names : table.NamesFile dir name ino) (order : table.InOrder)
    (fits : table.Fits (.renameApplyLocal info request now))
    (applied : table.applyOp (.renameApplyLocal info request now) =
      some after)
    (notDestination : ¬ (request.newparent = dir ∧ request.newname = name))
    (apart : ∀ source, table.get info.ino = some source →
      ¬ Within source.fullPath path) : after.HasPath ino path := by
  rcases rename_cases order fits applied with rfl | ⟨dropped, _, _, moved⟩
  · exact at_path
  cases moved with
  | sameInode => exact at_path
  | free _ movable =>
      exact movable.hasPath order.wf now at_path (apart _ movable.found)
  | @replaced existing entry newEntry looked _ pruned movable =>
      have stays : ino ≠ existing.inode := by
        rintro rfl
        obtain ⟨dirEntry, found, listed, _⟩ := order.wf.lookupChild.mp looked
        exact notDestination
          (names.unique order.wf ⟨dirEntry, found, listed⟩)
      have kept := pruned.hasPath at_path stays
      apply movable.hasPath (order.wf.pruned pruned) now kept
      obtain ⟨source, foundSource, whenGone⟩ := pruned.source movable.found
      have sourceStays : info.ino ≠ existing.inode := by
        intro same
        have dead := (whenGone same).1
        rw [movable.live] at dead
        cases dead
      obtain ⟨again, foundAgain, place, _⟩ :=
        pruned.kept sourceStays foundSource
      obtain rfl := Option.some.inj (foundAgain.symm.trans movable.found)
      rw [place.fullPath]
      exact apart source foundSource

/-- Moving the source changes the links of directories only. -/
theorem Movable.inherits {entry newEntry : InodeEntry}
    (movable : table.Movable info request entry newEntry)
    (wf : table.WellFormed)
    (order : (table.moveRenamed info request now).InOrder) :
    table.InheritsOrphans (table.moveRenamed info request now) := by
  obtain ⟨_, recorded, moved, recordedDef, _, _, isMoved, result⟩ :=
    movable.moveRenamed wf now
  have similar : table.Similar recorded :=
    (recordedDef ▸ table.owing_record info : Corresponding InodeEntry.Owing
      table recorded).mono fun _ _ same => same.sameNode
  intro ino other foundOther noLinks
  have file := order.file_of_orphan foundOther noLinks
  obtain ⟨before, found, handles⟩ :=
    (keepsHandles_moveRenamed table info request now).entry foundOther
  obtain ⟨noted, foundNoted, sameNoted⟩ := similar.forward found
  obtain ⟨target, foundTarget, reattached, _⟩ := isMoved.kept foundNoted
  obtain ⟨last, foundLast, sameLast⟩ :=
    (similar_touchRenamed moved info request now).forward foundTarget
  rw [result] at foundOther
  obtain rfl := Option.some.inj (foundLast.symm.trans foundOther)
  have targetFile : target.kind ≠ .directory := sameLast.kind ▸ file
  have notedFile : noted.kind ≠ .directory := reattached.kind ▸ targetFile
  have beforeFile : before.kind ≠ .directory := sameNoted.kind ▸ notedFile
  have links : last.nlink = before.nlink := by
    rw [sameLast.links targetFile, reattached.links notedFile,
      sameNoted.links beforeFile]
  rw [handles]
  rcases Nat.eq_zero_or_pos before.eviction.openHandles with closed | opened
  · exact Or.inr ⟨before, found, links.symm.trans noLinks, closed⟩
  · exact Or.inl opened

/-- An inode that is replaced stays only while it is open. -/
theorem open_of_replaced (order : table.InOrder) {existing : InodeEntry}
    (looked : table.lookupChild request.newparent request.newname =
      some existing)
    (pruned : table.Pruned (table.replaceTarget existing request now).2
      (· = existing.inode)) {other : InodeEntry}
    (found : (table.replaceTarget existing request now).2.get existing.inode =
      some other) : 0 < other.eviction.openHandles := by
  obtain ⟨_, _, _, isChild⟩ := order.wf.lookupChild.mp looked
  obtain ⟨entry, foundEntry, same, _⟩ :=
    (table.tapers_replaceTarget existing request now).entry found
  obtain rfl := Option.some.inj (isChild.found.symm.trans foundEntry)
  obtain ⟨_, _, whenGone⟩ := pruned.source found
  have dead := (whenGone rfl).1
  have file : existing.kind ≠ .directory := by
    intro directory
    rw [InodeEntry.isLive_of_directory (same.kind.trans directory)] at dead
    cases dead
  unfold InodeTable.replaceTarget at found
  rw [if_neg file] at found
  dsimp only at found
  obtain ⟨_, _, _, _, _, _, unlinked⟩ := unlinkOne_eq order.wf looked file now
  have orphan : (table.unlinkOne request.newparent request.newname now).2.get
      existing.inode =
        some { existing with
          nlink := 0
          ctime := now } := by
    rw [unlinked]
    exact get_put_self _ _ _
  split at found <;> rename_i last
  · have wf := order.wf.pruned (pruned_unlinkOne order.wf looked file now)
    rw [(pruned_removeOrphan wf orphan file rfl).1, get_erase_self] at found
    cases found
  · obtain rfl := Option.some.inj (orphan.symm.trans found)
    have opened : ¬ existing.eviction.openHandles = 0 := by
      simpa [hasOpenHandles, orphan, InodeEntry.hasOpenHandles] using last
    exact Nat.pos_of_ne_zero opened

theorem inherits_rename (order : table.InOrder) (orderAfter : after.InOrder)
    (fits : table.Fits (.renameApplyLocal info request now))
    (applied : table.applyOp (.renameApplyLocal info request now) =
      some after) : table.InheritsOrphans after := by
  rcases rename_cases order fits applied with rfl | ⟨dropped, _, _, moved⟩
  · exact .refl after
  cases moved with
  | sameInode => exact .refl table
  | free _ movable => exact movable.inherits order.wf orderAfter
  | @replaced existing entry newEntry looked _ pruned movable =>
      have replacedOrder :
          (table.replaceTarget existing request now).2.InOrder :=
        ⟨order.wf.pruned pruned, order.counted.replaceTarget order.wf looked now⟩
      have replaced : table.InheritsOrphans
          (table.replaceTarget existing request now).2 := by
        apply pruned.inherits replacedOrder
          (keepsHandles_replaceTarget _ _ _ _)
        rintro ino other rfl found
        exact open_of_replaced order looked pruned found
      exact replaced.trans (movable.inherits replacedOrder.wf orderAfter)

end

/-! ## Orphans and deferred evictions -/

section

variable {table : InodeTable} {dir ino : Ino} {name : Name}

/-- Only an inode without links goes. -/
theorem removeOrphan_cases (order : table.InOrder) (target : Ino) :
    (table.removeOrphan target = table ∧
      ∀ entry, table.get target = some entry → 0 < entry.nlink) ∨
    (∃ entry, table.get target = some entry ∧ entry.isLive = false ∧
      table.removeOrphan target = table.erase target ∧
      table.Pruned (table.removeOrphan target) (· = target)) := by
  cases found : table.get target with
  | none =>
      left
      simp [InodeTable.removeOrphan, found]
  | some entry =>
      by_cases orphan : entry.nlink = 0
      · right
        have file := order.file_of_orphan found orphan
        obtain ⟨erased, pruned⟩ := pruned_removeOrphan order.wf found file orphan
        exact ⟨entry, rfl, by simp [InodeEntry.isLive, file, orphan], erased,
          pruned⟩
      · left
        refine ⟨by simp [InodeTable.removeOrphan, found, orphan], ?_⟩
        intro other same
        obtain rfl := Option.some.inj same
        exact Nat.pos_of_ne_zero orphan

theorem InOrder.removeOrphan (order : table.InOrder) (target : Ino) :
    (table.removeOrphan target).InOrder :=
  ⟨(order.counted.removeOrphan order.wf target).1,
    (order.counted.removeOrphan order.wf target).2⟩

/-- The inode that is left has a link. -/
theorem links_of_removeOrphan (order : table.InOrder) {target : Ino}
    {entry : InodeEntry}
    (found : (table.removeOrphan target).get target = some entry) :
    0 < entry.nlink := by
  rcases removeOrphan_cases order target with ⟨same, links⟩ |
    ⟨_, _, _, erased, _⟩
  · rw [same] at found
    exact links entry found
  · rw [erased, get_erase_self] at found
    cases found

theorem NamesFile.removeOrphan (names : table.NamesFile dir name ino)
    (order : table.InOrder) (target : Ino) :
    (table.removeOrphan target).NamesFile dir name ino ∧
      ∀ path, table.HasPath ino path →
        (table.removeOrphan target).HasPath ino path := by
  rcases removeOrphan_cases order target with ⟨same, _⟩ |
    ⟨entry, found, dead, _, pruned⟩
  · rw [same]
    exact ⟨names, fun _ at_path => at_path⟩
  · have stays : ino ≠ target := by
      intro same
      subst same
      obtain ⟨live, _, foundLive, _, _, isLive, _⟩ := names.lookup order.wf
      obtain rfl := Option.some.inj (found.symm.trans foundLive)
      rw [dead] at isLive
      cases isLive
    exact ⟨pruned.namesFile names stays,
      fun _ at_path => pruned.hasPath at_path stays⟩

theorem inherits_removeOrphan (order : table.InOrder) (target : Ino) :
    table.InheritsOrphans (table.removeOrphan target) := by
  rcases removeOrphan_cases order target with ⟨same, _⟩ |
    ⟨_, _, _, erased, pruned⟩
  · rw [same]
    exact .refl table
  · apply pruned.inherits (order.removeOrphan target)
      (keepsHandles_removeOrphan table target)
    rintro ino other rfl found
    rw [erased, get_erase_self] at found
    cases found

/-- An eviction takes the inode out and touches no links or handles. -/
theorem evictIfSafe_source {target : Ino} {other : InodeEntry}
    (found : (table.evictIfSafe target).2.get ino = some other) :
    ∃ entry, table.get ino = some entry ∧ other.nlink = entry.nlink ∧
      other.eviction = entry.eviction := by
  unfold InodeTable.evictIfSafe at found
  split at found
  · exact ⟨other, found, rfl, rfl⟩
  split at found
  · rw [get_modify, get_removePath, get_removePath, get_erase, get_erase] at found
    split at found
    · rename_i here
      subst here
      obtain ⟨entry, foundEntry, rfl⟩ := Option.map_eq_some_iff.mp found
      split at foundEntry
      · cases foundEntry
      · refine ⟨entry, foundEntry, ?_, eviction_removeChildByIno entry target⟩
        unfold InodeEntry.removeChildByIno
        split <;> rfl
    · split at found
      · cases found
      · exact ⟨other, found, rfl, rfl⟩
  · exact ⟨other, found, rfl, rfl⟩

theorem NamesFile.evictIfSafe (names : table.NamesFile dir name ino)
    (order : table.InOrder) {target : Ino} (stays : ino ≠ target) :
    (table.evictIfSafe target).2.NamesFile dir name ino ∧
      ∀ path, table.HasPath ino path →
        (table.evictIfSafe target).2.HasPath ino path := by
  rcases evictIfSafe_eq order.wf target with
    same | ⟨entry, found, notRoot, live, same⟩
  · rw [same]
    exact ⟨names, fun _ at_path => at_path⟩
  by_cases file : entry.kind = .directory
  · have unchanged : (table.evictIfSafe target).2 = table := by
      simp [InodeTable.evictIfSafe, found, file]
    rw [unchanged]
    exact ⟨names, fun _ at_path => at_path⟩
  · have pruned := pruned_remove order.wf found notRoot live
    have notBelow : ¬ table.Below target ino := by
      rw [order.wf.below_file found file]
      exact stays
    have similar := same.similar
    have kept := pruned.namesFile names notBelow
    refine ⟨⟨(hasChild_of_similar similar).mpr kept.child, ?_⟩, ?_⟩
    · intro other foundOther
      obtain ⟨before, foundBefore, place⟩ := similar.backward foundOther
      rw [place.kind]
      exact kept.file before foundBefore
    · intro path at_path
      obtain ⟨before, foundBefore, fullPath⟩ := pruned.hasPath at_path notBelow
      obtain ⟨last, foundLast, place⟩ := similar.forward foundBefore
      exact ⟨last, foundLast, place.fullPath.trans fullPath⟩

/-- The deferred eviction, when there is one, is of another inode. -/
theorem NamesFile.evictPending (names : table.NamesFile dir name ino)
    (order : table.InOrder) {target : Ino}
    (stays : (∃ entry, table.get target = some entry ∧
      entry.eviction.evictPending = true) → ino ≠ target) :
    (table.evictPending target).2.NamesFile dir name ino ∧
      ∀ path, table.HasPath ino path →
        (table.evictPending target).2.HasPath ino path := by
  have same : ∀ entry : InodeEntry, entry.SameLinks { entry with
      eviction := { entry.eviction with evictPending := false } } :=
    fun entry => sameLinks_eviction entry _
  have taken : (table.takeEvictPending target).2.NamesFile dir name ino :=
    names.modify target same
  have path : ∀ path, table.HasPath ino path →
      (table.takeEvictPending target).2.HasPath ino path :=
    fun _ at_path => at_path.modify target same
  have takenOrder : (table.takeEvictPending target).2.InOrder :=
    order.update target same
  unfold InodeTable.evictPending
  dsimp only
  split <;> rename_i flag
  · obtain ⟨entry, found, pending⟩ := (Option.any_eq_true _ _).mp flag
    have evicted := taken.evictIfSafe takenOrder (stays ⟨entry, found, pending⟩)
    exact ⟨evicted.1, fun _ at_path => evicted.2 _ (path _ at_path)⟩
  · exact ⟨taken, path⟩

/-- What is left of the inode has the links and handles that it had. -/
theorem evictPending_source {target : Ino} {other : InodeEntry}
    (found : (table.evictPending target).2.get ino = some other) :
    ∃ entry, table.get ino = some entry ∧ other.nlink = entry.nlink ∧
      other.eviction.openHandles = entry.eviction.openHandles := by
  have taken : ∀ {middle : InodeEntry},
      (table.takeEvictPending target).2.get ino = some middle →
      ∃ entry, table.get ino = some entry ∧ middle.nlink = entry.nlink ∧
        middle.eviction.openHandles = entry.eviction.openHandles := by
    intro middle foundMiddle
    rw [takeEvictPending, get_modifyEviction] at foundMiddle
    split at foundMiddle
    · rename_i here
      subst here
      obtain ⟨entry, foundEntry, rfl⟩ := Option.map_eq_some_iff.mp foundMiddle
      exact ⟨entry, foundEntry, rfl, rfl⟩
    · exact ⟨middle, foundMiddle, rfl, rfl⟩
  unfold InodeTable.evictPending at found
  dsimp only at found
  split at found
  · obtain ⟨middle, foundMiddle, links, eviction⟩ := evictIfSafe_source found
    obtain ⟨entry, foundEntry, sameLinks, handles⟩ := taken foundMiddle
    exact ⟨entry, foundEntry, links.trans sameLinks, eviction ▸ handles⟩
  · exact taken found

/-- The last close leaves an orphan only while it is open, or was never its
own. -/
theorem inherits_reap (order : table.InOrder) (overlay : Bool) (target : Ino)
    {other : InodeEntry}
    (found : (table.reapOnLastRelease overlay target).table.get ino =
      some other) (noLinks : other.nlink = 0) :
    ino ≠ target ∧ (0 < other.eviction.openHandles ∨
      ∃ entry, table.get ino = some entry ∧ entry.nlink = 0 ∧
        entry.eviction.openHandles = 0) := by
  obtain ⟨middle, foundMiddle, links, handles⟩ := evictPending_source found
  constructor
  · rintro rfl
    have positive := links_of_removeOrphan order foundMiddle
    omega
  · rw [handles]
    exact inherits_removeOrphan order target ino middle foundMiddle
      (links.symm.trans noLinks)

theorem NamesFile.reap (names : table.NamesFile dir name ino)
    (order : table.InOrder) (overlay : Bool) {target : Ino}
    (stays : (∃ entry, table.get target = some entry ∧
      entry.eviction.evictPending = true) → ino ≠ target) :
    (table.reapOnLastRelease overlay target).table.NamesFile dir name ino ∧
      ∀ path, table.HasPath ino path →
        (table.reapOnLastRelease overlay target).table.HasPath ino path := by
  obtain ⟨kept, keptPath⟩ := names.removeOrphan order target
  have evicted := kept.evictPending (order.removeOrphan target) (by
    intro pending
    obtain ⟨entry, found, flag⟩ := pending
    rcases removeOrphan_cases order target with ⟨same, _⟩ | ⟨_, _, _, erased, _⟩
    · rw [same] at found
      exact stays ⟨entry, found, flag⟩
    · rw [erased, get_erase_self] at found
      cases found)
  exact ⟨evicted.1, fun path at_path => evicted.2 path (keptPath path at_path)⟩

theorem InOrder.reap (order : table.InOrder) (overlay : Bool) (target : Ino) :
    (table.reapOnLastRelease overlay target).table.InOrder := by
  have taken : ((table.removeOrphan target).takeEvictPending target).2.InOrder :=
    (order.removeOrphan target).update target fun entry =>
      sameLinks_eviction entry _
  unfold reapOnLastRelease InodeTable.evictPending
  dsimp only
  split
  · exact taken.evictIfSafe target
  · exact taken

end

end InodeTable

end HfMount.Inode
