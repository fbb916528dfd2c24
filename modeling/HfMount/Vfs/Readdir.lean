import HfMount.Inode.WellFormed

/-!
# Listing a directory

`readdir` gives the directory itself, its parent, and then the children in the
order in which they were added.
-/

namespace HfMount.Inode

open SlashPath

/-- `VirtualFsDirEntry`. -/
structure DirEntry where
  ino : Ino
  kind : InodeKind
  name : Name
  deriving DecidableEq

namespace InodeTable

/-- The children of a directory that are in the table. -/
def childEntries (table : InodeTable) (children : List DirChild) :
    List DirEntry :=
  children.filterMap fun child =>
    (table.get child.ino).map fun entry =>
      { ino := entry.inode
        kind := entry.kind
        name := child.name }

/-- The listing of a directory whose children are loaded; `none` is
`ENOENT`. -/
def readdir (table : InodeTable) (ino : Ino) : Option (List DirEntry) :=
  (table.get ino).map fun entry =>
    { ino, kind := .directory, name := ['.'] } ::
      { ino := entry.parent, kind := .directory, name := ['.', '.'] } ::
        table.childEntries entry.children

/-- Inode numbers as `InodeTable::new` and `insert` give them out. -/
structure Numbered (table : InodeTable) : Prop where
  zero : table.get 0 = none
  root : ∀ {entry}, table.get rootInode = some entry →
    entry.parent = rootInode

section

variable {table : InodeTable} {ino : Ino} {entry : InodeEntry}

/-- No child is skipped, so the listing reads what the children say. -/
theorem map_childEntries {α : Type} {shown : DirEntry → α}
    {field : DirChild → α} (wf : table.WellFormed)
    (found : table.get ino = some entry)
    (same : ∀ {child childEntry}, table.IsChild ino entry child childEntry →
      shown ⟨childEntry.inode, childEntry.kind, child.name⟩ = field child) :
    (table.childEntries entry.children).map shown =
      entry.children.map field := by
  unfold childEntries
  rw [List.map_filterMap, ← List.filterMap_eq_map]
  apply List.filterMap_congr
  intro child listed
  obtain ⟨childEntry, isChild⟩ := wf.child found listed
  rw [isChild.found]
  exact congrArg some (same isChild)

theorem childEntries_eq (wf : table.WellFormed)
    (found : table.get ino = some entry) :
    (table.childEntries entry.children).map (·.ino) =
      entry.children.map (·.ino) := by
  apply map_childEntries wf found
  intro child childEntry isChild
  exact (wf.key isChild.found).1

theorem names_childEntries (wf : table.WellFormed)
    (found : table.get ino = some entry) :
    (table.childEntries entry.children).map (·.name) =
      entry.children.map (·.name) := by
  apply map_childEntries wf found
  intro child childEntry isChild
  rfl

theorem nodup_childEntries (wf : table.WellFormed)
    (found : table.get ino = some entry) :
    ((table.childEntries entry.children).map (·.ino)).Nodup := by
  rw [childEntries_eq wf found]
  exact (wf.indexed found).nodup

/-- A listed child. -/
theorem mem_childEntries (wf : table.WellFormed)
    (found : table.get ino = some entry) {child : DirEntry}
    (listed : child ∈ table.childEntries entry.children) :
    ∃ childEntry, table.IsChild ino entry ⟨child.ino, child.name⟩ childEntry ∧
      childEntry.kind = child.kind ∧
      ⟨child.ino, child.name⟩ ∈ entry.children := by
  obtain ⟨⟨target, name⟩, inDir, built⟩ := List.mem_filterMap.mp listed
  obtain ⟨childEntry, isChild⟩ := wf.child found inDir
  rw [isChild.found] at built
  obtain rfl := Option.some.inj built
  have number : childEntry.inode = target := (wf.key isChild.found).1
  dsimp only
  rw [number]
  exact ⟨childEntry, isChild, rfl, inDir⟩

/-- A child has another number than the directory that lists it, and than the
parent of that directory. -/
theorem child_ne (wf : table.WellFormed) (numbered : table.Numbered)
    (found : table.get ino = some entry) {child : DirEntry}
    (listed : child ∈ table.childEntries entry.children) :
    child.ino ≠ ino ∧ child.ino ≠ entry.parent ∧ 0 < child.ino := by
  obtain ⟨childEntry, isChild, _, inDir⟩ := mem_childEntries wf found listed
  obtain ⟨directory, notRoot, valid⟩ := wf.directory found inDir
  have foundChild : table.get child.ino = some childEntry := isChild.found
  have below := length_lt_childPath valid entry.fullPath
  rw [← isChild.fullPath] at below
  refine ⟨?_, ?_, ?_⟩
  · intro same
    rw [same, found] at foundChild
    obtain rfl := Option.some.inj foundChild
    omega
  · intro same
    by_cases isRoot : ino = rootInode
    · subst isRoot
      rw [numbered.root found] at same
      exact notRoot same
    · obtain ⟨parentEntry, foundParent, _, validName, _, path⟩ :=
        wf.parent found isRoot (InodeEntry.isLive_of_directory directory)
      rw [same, foundParent] at foundChild
      obtain rfl := Option.some.inj foundChild
      have above := length_lt_childPath validName parentEntry.fullPath
      rw [← path] at above
      omega
  · apply Nat.pos_of_ne_zero
    intro zero
    rw [zero, numbered.zero] at foundChild
    cases foundChild

theorem parent_ne (wf : table.WellFormed)
    (found : table.get ino = some entry) (directory : entry.kind = .directory)
    (notRoot : ino ≠ rootInode) : entry.parent ≠ ino := by
  obtain ⟨parentEntry, foundParent, _, valid, _, path⟩ :=
    wf.parent found notRoot (InodeEntry.isLive_of_directory directory)
  intro same
  rw [same, found] at foundParent
  obtain rfl := Option.some.inj foundParent
  have above := length_lt_childPath valid entry.fullPath
  rw [← path] at above
  omega

theorem parent_pos (wf : table.WellFormed) (numbered : table.Numbered)
    (found : table.get ino = some entry) (directory : entry.kind = .directory) :
    0 < entry.parent := by
  by_cases isRoot : ino = rootInode
  · subst isRoot
    rw [numbered.root found]
    decide
  · obtain ⟨parentEntry, foundParent, _⟩ :=
      wf.parent found isRoot (InodeEntry.isLive_of_directory directory)
    apply Nat.pos_of_ne_zero
    intro zero
    rw [zero, numbered.zero] at foundParent
    cases foundParent

end

end InodeTable

end HfMount.Inode
