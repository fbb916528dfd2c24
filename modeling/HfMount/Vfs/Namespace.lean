import HfMount.Vfs.TableRuns

/-!
# The namespace of an inode table

What a directory shows under a name is an inode and its kind.  Attributes do
not matter to it, an insertion adds one name, and the removal of a file takes
away every name of that file and no other.
-/

namespace HfMount.Inode

open SlashPath

namespace InodeTable

/-- The inode that a directory has under a name, with its kind. -/
def names (table : InodeTable) (dir : Ino) (name : Name) :
    Option (Ino × InodeKind) :=
  (table.lookupChild dir name).map fun entry => (entry.inode, entry.kind)

variable {table after : InodeTable}

theorem names_eq_none {dir : Ino} {name : Name} :
    table.names dir name = none ↔ table.lookupChild dir name = none :=
  Option.map_eq_none_iff

theorem names_eq_some {dir : Ino} {name : Name} {ino : Ino} {kind : InodeKind} :
    table.names dir name = some (ino, kind) ↔
      ∃ entry, table.lookupChild dir name = some entry ∧ entry.inode = ino ∧
        entry.kind = kind := by
  simp [names]

/-- Only the names of the directories and the kinds of the inodes matter. -/
theorem names_congr
    (index : ∀ dir name, ((after.get dir).bind (·.childIndex name)) =
      (table.get dir).bind (·.childIndex name))
    (kept : ∀ ino, (after.get ino).map (fun entry => (entry.inode, entry.kind)) =
      (table.get ino).map fun entry => (entry.inode, entry.kind))
    (dir : Ino) (name : Name) : after.names dir name = table.names dir name := by
  simp only [names, lookupChild, Option.map_bind, Function.comp_def, index, kept]

theorem names_similar (similar : table.Similar after) (dir : Ino) (name : Name) :
    after.names dir name = table.names dir name := by
  apply names_congr
  · intro dir name
    exact similar.bind_get (fun _ _ same => by rw [same.childIndex]) dir
  · intro ino
    simp only [Option.map_eq_bind]
    exact similar.bind_get
      (fun _ _ same => by rw [Function.comp, same.inode, same.kind]; rfl) ino

theorem names_modify (table : InodeTable) (ino : Ino)
    {change : InodeEntry → InodeEntry}
    (same : ∀ entry : InodeEntry, entry.SameNode (change entry)) (dir : Ino)
    (name : Name) : (table.modify ino change).names dir name =
      table.names dir name :=
  names_similar (similar_modify table ino same) dir name

/-- A name of a live table leads to an inode under its own number. -/
theorem WellFormed.found_of_names (wf : table.WellFormed) {dir ino : Ino}
    {name : Name} {kind : InodeKind}
    (named : table.names dir name = some (ino, kind)) :
    ∃ entry, table.get ino = some entry ∧ entry.kind = kind := by
  obtain ⟨entry, looked, rfl, rfl⟩ := names_eq_some.mp named
  obtain ⟨_, _, _, isChild⟩ := wf.lookupChild.mp looked
  exact ⟨entry, isChild.found, rfl⟩

/-- No directory has a name for an inode number that was not given out. -/
theorem WellFormed.names_ne_next (wf : table.WellFormed) {dir : Ino}
    {name : Name} {kind : InodeKind} :
    table.names dir name ≠ some (table.nextInode, kind) := by
  intro named
  obtain ⟨entry, found, _⟩ := wf.found_of_names named
  exact Nat.lt_irrefl _ (wf.key found).2

/-- A new inode is under its name, and nothing else changes. -/
theorem WellFormed.names_insert (wf : table.WellFormed) {parent : Ino}
    {name : Name} {parentEntry : InodeEntry}
    (found : table.get parent = some parentEntry)
    (directory : parentEntry.kind = .directory) (valid : ValidName name)
    (free : parentEntry.childIndex name = none) (kind : InodeKind) (size : Nat)
    (mtime : Time) (xetHash : Option Hash) (mode uid gid : Nat) (now : Time)
    (dir : Ino) (other : Name) :
    (table.insert parent name (childPath parentEntry.fullPath name) kind size
        mtime xetHash mode uid gid now).2.names dir other =
      if dir = parent ∧ other = name then some (table.nextInode, kind)
      else table.names dir other := by
  obtain ⟨after, inserted, -, -, gotNew, gotParent, gotOther⟩ := insert_of_free
    wf found directory valid free kind size mtime xetHash mode uid gid now
  rw [inserted]
  have fresh : table.get table.nextInode = none := by
    cases taken : table.get table.nextInode with
    | none => rfl
    | some entry => exact absurd (wf.key taken).2 (Nat.lt_irrefl _)
  have parentOld : parent ≠ table.nextInode := by
    rintro rfl
    rw [fresh] at found
    cases found
  have looked (child : Ino) (given : child < table.nextInode) :
      (after.get child).map (fun entry => (entry.inode, entry.kind)) =
        (table.get child).map fun entry => (entry.inode, entry.kind) := by
    by_cases same : child = parent
    · subst same
      rw [gotParent, found]
      rfl
    · rw [gotOther child (Nat.ne_of_lt given) same]
  have listed {child : Ino} {dirEntry : InodeEntry} {shown : Name}
      (foundDir : table.get dir = some dirEntry)
      (index : dirEntry.childIndex shown = some child) :
      child < table.nextInode := by
    obtain ⟨entry, isChild⟩ := wf.child foundDir
      (((wf.indexed foundDir).index shown child).mp index)
    exact (wf.key isChild.found).2
  by_cases new : dir = table.nextInode
  · subst new
    rw [if_neg fun both => parentOld both.1.symm]
    simp [names, InodeTable.lookupChild, gotNew, fresh, InodeEntry.new]
  by_cases same : dir = parent
  · subst same
    by_cases here : other = name
    · subst here
      rw [if_pos ⟨rfl, rfl⟩]
      simp [names, InodeTable.lookupChild, gotParent, grownParent, InodeEntry.addChild,
        gotNew, InodeEntry.new]
    · rw [if_neg fun both => here both.2]
      simp only [names, InodeTable.lookupChild, gotParent, found, grownParent,
        InodeEntry.addChild, Option.bind_some, Function.update_of_ne here]
      cases index : parentEntry.childIndex other with
      | none => rfl
      | some child => simpa using looked child (listed found index)
  · rw [if_neg fun both => same both.1]
    simp only [names, InodeTable.lookupChild, gotOther dir new same]
    cases foundDir : table.get dir with
    | none => rfl
    | some dirEntry =>
        cases index : dirEntry.childIndex other with
        | none => simp [index]
        | some child => simpa [index] using looked child (listed foundDir index)

/-- A lookup once a file has been removed. -/
theorem get_remove_leaf {ino : Ino} {entry : InodeEntry}
    (found : table.get ino = some entry) (leaf : entry.children = [])
    (other : Ino) : (table.remove ino).get other =
      if other = ino then none
      else if other = entry.parent then
        (table.get other).map (shrunkParent · ino entry.kind)
      else table.get other := by
  rw [remove_of_leaf found leaf, detachFromParent, get_modify]
  simp only [get_removePath, get_erase]
  by_cases gone : other = ino
  · subst gone
    by_cases above : other = entry.parent
    · simp [← above]
    · simp [above]
  · by_cases above : other = entry.parent
    · subst above
      simp only [gone, if_true, if_false]
      rfl
    · simp [gone, above]

/-- The index of the parent loses the file, the others never had it. -/
theorem WellFormed.childIndex_remove (wf : table.WellFormed) {ino dir : Ino}
    {entry dirEntry : InodeEntry} (found : table.get ino = some entry)
    (leaf : entry.children = []) (foundDir : table.get dir = some dirEntry)
    (different : dir ≠ ino) (name : Name) :
    ∃ other, (table.remove ino).get dir = some other ∧ ∀ child,
      other.childIndex name = some child ↔
        dirEntry.childIndex name = some child ∧ child ≠ ino := by
  have indexed := wf.indexed foundDir
  have got := get_remove_leaf found leaf dir
  by_cases above : dir = entry.parent
  · refine ⟨shrunkParent dirEntry ino entry.kind, ?_, ?_⟩
    · rw [got, if_neg different, if_pos above, foundDir]
      rfl
    · intro child
      have shrunk := (indexed.removeChildByIno ino).index name child
      rw [InodeEntry.mem_removeChildByIno indexed.nodup,
        ← indexed.index] at shrunk
      exact shrunk
  · refine ⟨dirEntry, ?_, ?_⟩
    · rw [got, if_neg different, if_neg above, foundDir]
    · intro child
      constructor
      · intro indexedChild
        refine ⟨indexedChild, ?_⟩
        rintro rfl
        obtain ⟨_, isChild⟩ :=
          wf.child foundDir ((indexed.index name child).mp indexedChild)
        obtain rfl := Option.some.inj (found.symm.trans isChild.found)
        exact above isChild.parent.symm
      · exact And.left

/-- The removal of a file takes away its names, wherever they are by then. -/
theorem WellFormed.names_remove (wf : table.WellFormed) {ino : Ino}
    {entry : InodeEntry} (found : table.get ino = some entry)
    (file : entry.kind ≠ .directory) (dir : Ino) (name : Name) :
    (table.remove ino).names dir name =
      (table.names dir name).filter (·.1 ≠ ino) := by
  have leaf := wf.children_of_file found file
  have got := get_remove_leaf found leaf
  have shown {other : Ino} (stays : other ≠ ino) :
      ((table.remove ino).get other).map
          (fun entry => (entry.inode, entry.kind)) =
        (table.get other).map fun entry => (entry.inode, entry.kind) := by
    rw [got, if_neg stays]
    split
    · rw [Option.map_map]
      congr 1
      funext above
      simp only [Function.comp_apply, shrunkParent, InodeEntry.removeChildByIno]
      split <;> rfl
    · rfl
  have gone : (table.remove ino).get ino = none := by simp [got]
  by_cases here : dir = ino
  · subst here
    have unnamed : table.names dir name = none := by
      rw [names_eq_none]
      apply (wf.lookupChild_none found).mpr
      cases index : entry.childIndex name with
      | none => rfl
      | some child =>
          have listed := ((wf.indexed found).index name child).mp index
          rw [leaf] at listed
          cases listed
    rw [unnamed]
    simp [names, InodeTable.lookupChild, gone]
  cases foundDir : table.get dir with
  | none => simp [names, InodeTable.lookupChild, got, here, foundDir]
  | some dirEntry =>
      obtain ⟨other, gotDir, index⟩ :=
        wf.childIndex_remove found leaf foundDir here name
      simp only [names, InodeTable.lookupChild, gotDir, foundDir,
        Option.bind_some]
      cases indexDir : dirEntry.childIndex name with
      | none =>
          cases indexOther : other.childIndex name with
          | none => rfl
          | some child =>
              rw [((index child).mp indexOther).1] at indexDir
              cases indexDir
      | some child =>
          by_cases same : child = ino
          · subst same
            have noIndex : other.childIndex name = none := by
              cases indexOther : other.childIndex name with
              | none => rfl
              | some next =>
                  obtain ⟨indexNext, different⟩ := (index next).mp indexOther
                  rw [indexDir] at indexNext
                  exact absurd (Option.some.inj indexNext).symm different
            simp [noIndex, found, (wf.key found).1, Option.filter]
          · rw [(index child).mpr ⟨indexDir, same⟩, Option.bind_some,
              Option.bind_some, shown same]
            cases foundChild : table.get child with
            | none => rfl
            | some childEntry =>
                simp [(wf.key foundChild).1, same, Option.filter]

theorem filter_of_unnamed {named : Option (Ino × InodeKind)} {ino : Ino}
    (other : ∀ kind, named ≠ some (ino, kind)) :
    named.filter (·.1 ≠ ino) = named := by
  cases named with
  | none => rfl
  | some pair =>
      have different : pair.1 ≠ ino := by
        rintro rfl
        exact other pair.2 rfl
      simp [Option.filter, different]

/-- No name leads to an inode that is not there. -/
theorem WellFormed.names_ne_missing (wf : table.WellFormed) {ino : Ino}
    (missing : table.get ino = none) {dir : Ino} {name : Name}
    {kind : InodeKind} : table.names dir name ≠ some (ino, kind) := by
  intro named
  obtain ⟨entry, found, _⟩ := wf.found_of_names named
  rw [missing] at found
  cases found

theorem WellFormed.names_remove_file (wf : table.WellFormed) {ino : Ino}
    (file : ∀ entry, table.get ino = some entry → entry.kind = .file)
    (dir : Ino) (name : Name) :
    (table.remove ino).names dir name =
      (table.names dir name).filter (·.1 ≠ ino) := by
  cases found : table.get ino with
  | some entry =>
      apply wf.names_remove found
      rw [file entry found]
      decide
  | none =>
      have same : table.remove ino = table := by
        simp only [InodeTable.remove, found]
      rw [same, filter_of_unnamed fun kind => wf.names_ne_missing found]

end InodeTable

end HfMount.Inode
