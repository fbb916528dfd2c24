import HfMount.Poll.Diff
import HfMount.Inode.Subtree

/-!
# Removing remotely deleted files

A removal finds its file by inode number, but takes it out of the tree by
name, or by path when no handle is open.  The inode that it hits is the
`deletionTarget`; every other inode keeps its entry, its place in its directory
and its path.
-/

namespace HfMount.Poll

open SlashPath Inode

/-- The inode under a name of a directory. -/
def slot (table : InodeTable) (dir : Ino) (name : Name) : Option Ino :=
  (table.get dir).bind (·.childIndex name)

/-- The directory lists the inode under the name. -/
def Listed (table : InodeTable) (dir : Ino) (name : Name) (ino : Ino) : Prop :=
  ∃ entry, table.get dir = some entry ∧ ⟨ino, name⟩ ∈ entry.children

/-- The inode that `removeRemoteFile` takes out of the tree: the one under the
file's name while a handle is open, and the one at the file's path else. -/
def deletionTarget (table : InodeTable) (ino : Ino) : Option Ino :=
  (table.get ino).bind fun entry =>
    if entry.isDirty then none
    else if entry.hasOpenHandles then slot table entry.parent entry.name
    else table.pathToInode entry.fullPath

/-- What a remote change leaves of an inode that it must not touch. -/
structure Untouched (before after : InodeTable) (ino : Ino) : Prop where
  entry : ∃ old new : InodeEntry, before.get ino = some old ∧
    after.get ino = some new ∧ new.nlink = old.nlink ∧ new.size = old.size ∧
    new.xetHash = old.xetHash ∧ new.dirtyGeneration = old.dirtyGeneration
  listed : ∀ dir name, Listed after dir name ino ↔ Listed before dir name ino
  slot : ∀ dir name, slot after dir name = some ino ↔
    slot before dir name = some ino
  path : ∀ path, after.pathToInode path = some ino ↔
    before.pathToInode path = some ino

theorem Untouched.refl {table : InodeTable} {ino : Ino} {entry : InodeEntry}
    (found : table.get ino = some entry) : Untouched table table ino :=
  ⟨⟨entry, entry, found, found, rfl, rfl, rfl, rfl⟩, fun _ _ => Iff.rfl,
    fun _ _ => Iff.rfl, fun _ => Iff.rfl⟩

theorem Untouched.trans {first second third : InodeTable} {ino : Ino}
    (left : Untouched first second ino) (right : Untouched second third ino) :
    Untouched first third ino := by
  obtain ⟨old, middle, foundOld, foundMiddle, nlink, size, xetHash,
    generation⟩ := left.entry
  obtain ⟨again, new, foundAgain, foundNew, nlink', size', xetHash',
    generation'⟩ := right.entry
  obtain rfl := Option.some.inj (foundMiddle.symm.trans foundAgain)
  exact ⟨⟨old, new, foundOld, foundNew, nlink'.trans nlink, size'.trans size,
      xetHash'.trans xetHash, generation'.trans generation⟩,
    fun dir name => (right.listed dir name).trans (left.listed dir name),
    fun dir name => (right.slot dir name).trans (left.slot dir name),
    fun path => (right.path path).trans (left.path path)⟩

theorem Untouched.isDirty {before after : InodeTable} {ino : Ino}
    {old new : InodeEntry} (untouched : Untouched before after ino)
    (foundOld : before.get ino = some old) (foundNew : after.get ino = some new) :
    new.isDirty = old.isDirty := by
  obtain ⟨left, right, foundLeft, foundRight, _, _, _, generation⟩ :=
    untouched.entry
  obtain rfl := Option.some.inj (foundOld.symm.trans foundLeft)
  obtain rfl := Option.some.inj (foundNew.symm.trans foundRight)
  unfold InodeEntry.isDirty
  rw [generation]

/-! ## Tables that only lose -/

/-- The same inode, with some children and links gone. -/
structure Narrowed (old new : InodeEntry) : Prop where
  inode : new.inode = old.inode
  parent : new.parent = old.parent
  name : new.name = old.name
  fullPath : new.fullPath = old.fullPath
  kind : new.kind = old.kind
  eviction : new.eviction = old.eviction
  dirtyGeneration : new.dirtyGeneration = old.dirtyGeneration
  childrenLoadedAt : new.childrenLoadedAt = old.childrenLoadedAt
  children : ∀ child ∈ new.children, child ∈ old.children
  childIndex : ∀ name ino, new.childIndex name = some ino →
    old.childIndex name = some ino
  indexed : old.Indexed → new.Indexed

theorem Narrowed.refl (entry : InodeEntry) : Narrowed entry entry :=
  ⟨rfl, rfl, rfl, rfl, rfl, rfl, rfl, rfl, fun _ listed => listed,
    fun _ _ found => found, id⟩

theorem Narrowed.trans {first second third : InodeEntry}
    (left : Narrowed first second) (right : Narrowed second third) :
    Narrowed first third :=
  ⟨right.inode.trans left.inode, right.parent.trans left.parent,
    right.name.trans left.name, right.fullPath.trans left.fullPath,
    right.kind.trans left.kind, right.eviction.trans left.eviction,
    right.dirtyGeneration.trans left.dirtyGeneration,
    right.childrenLoadedAt.trans left.childrenLoadedAt,
    fun child listed => left.children child (right.children child listed),
    fun name ino found => left.childIndex name ino
      (right.childIndex name ino found),
    fun indexed => right.indexed (left.indexed indexed)⟩

theorem Narrowed.isDirty {old new : InodeEntry} (narrow : Narrowed old new) :
    new.isDirty = old.isDirty := by
  unfold InodeEntry.isDirty
  rw [narrow.dirtyGeneration]

theorem Narrowed.hasOpenHandles {old new : InodeEntry}
    (narrow : Narrowed old new) : new.hasOpenHandles = old.hasOpenHandles := by
  unfold InodeEntry.hasOpenHandles
  rw [narrow.eviction]

theorem narrowed_removeChildByName (entry : InodeEntry) (name : Name) :
    Narrowed entry (entry.removeChildByName name) := by
  have indexed := fun given : entry.Indexed => given.removeChildByName name
  unfold InodeEntry.removeChildByName at indexed ⊢
  split <;> rename_i found
  · exact .refl entry
  · rw [found] at indexed
    refine ⟨rfl, rfl, rfl, rfl, rfl, rfl, rfl, rfl, ?_, ?_, indexed⟩
    · exact fun child listed => List.mem_of_mem_eraseP listed
    · intro other target atName
      dsimp only at atName
      by_cases same : other = name
      · rw [same, Function.update_self] at atName
        cases atName
      · rwa [Function.update_of_ne same] at atName

theorem narrowed_shrunkParent (entry : InodeEntry) (child : Ino)
    (kind : InodeKind) :
    Narrowed entry (InodeTable.shrunkParent entry child kind) := by
  have indexed := fun given : entry.Indexed => given.removeChildByIno child
  unfold InodeTable.shrunkParent
  unfold InodeEntry.removeChildByIno at indexed ⊢
  split <;> rename_i found
  · exact ⟨rfl, rfl, rfl, rfl, rfl, rfl, rfl, rfl, fun _ listed => listed,
      fun _ _ found => found, fun given => ⟨given.nodup, given.index⟩⟩
  · rw [found] at indexed
    refine ⟨rfl, rfl, rfl, rfl, rfl, rfl, rfl, rfl, ?_, ?_,
      fun given => ⟨(indexed given).nodup, (indexed given).index⟩⟩
    · exact fun child listed => List.mem_of_mem_eraseP listed
    · rename_i removed
      intro other target atName
      dsimp only at atName
      by_cases same : other = removed.name
      · rw [same, Function.update_self] at atName
        cases atName
      · rwa [Function.update_of_ne same] at atName

/-- `after` has nothing that `before` did not have. -/
structure Shrunk (before after : InodeTable) : Prop where
  entry : ∀ {ino : Ino} {new : InodeEntry}, after.get ino = some new →
    ∃ old, before.get ino = some old ∧ Narrowed old new
  path : ∀ {path : Path} {ino : Ino}, after.pathToInode path = some ino →
    before.pathToInode path = some ino

theorem Shrunk.refl (table : InodeTable) : Shrunk table table :=
  ⟨fun found => ⟨_, found, .refl _⟩, fun mapped => mapped⟩

theorem Shrunk.trans {first second third : InodeTable}
    (left : Shrunk first second) (right : Shrunk second third) :
    Shrunk first third := by
  refine ⟨?_, fun mapped => left.path (right.path mapped)⟩
  intro ino new found
  obtain ⟨middle, foundMiddle, narrowRight⟩ := right.entry found
  obtain ⟨old, foundOld, narrowLeft⟩ := left.entry foundMiddle
  exact ⟨old, foundOld, narrowLeft.trans narrowRight⟩

theorem Shrunk.slot {before after : InodeTable} (shrunk : Shrunk before after)
    {dir ino : Ino} {name : Name} (found : slot after dir name = some ino) :
    slot before dir name = some ino := by
  obtain ⟨new, gotNew, atName⟩ := Option.bind_eq_some_iff.mp found
  obtain ⟨old, gotOld, narrow⟩ := shrunk.entry gotNew
  exact Option.bind_eq_some_iff.mpr
    ⟨old, gotOld, narrow.childIndex name ino atName⟩

theorem Shrunk.listed {before after : InodeTable}
    (shrunk : Shrunk before after) {dir ino : Ino} {name : Name}
    (listed : Listed after dir name ino) : Listed before dir name ino := by
  obtain ⟨new, gotNew, inChildren⟩ := listed
  obtain ⟨old, gotOld, narrow⟩ := shrunk.entry gotNew
  exact ⟨old, gotOld, narrow.children _ inChildren⟩

/-- A removal that comes later hits nothing that it would not hit now. -/
theorem Shrunk.deletionTarget {before after : InodeTable}
    (shrunk : Shrunk before after) {ino target : Ino}
    (hit : deletionTarget after ino = some target) :
    deletionTarget before ino = some target := by
  obtain ⟨new, gotNew, named⟩ := Option.bind_eq_some_iff.mp hit
  obtain ⟨old, gotOld, narrow⟩ := shrunk.entry gotNew
  refine Option.bind_eq_some_iff.mpr ⟨old, gotOld, ?_⟩
  rw [narrow.isDirty, narrow.hasOpenHandles, narrow.parent, narrow.name,
    narrow.fullPath] at named
  split at named <;> rename_i dirty
  · cases named
  split at named <;> rename_i opened
  · rw [if_neg dirty, if_pos opened]
    exact shrunk.slot named
  · rw [if_neg dirty, if_neg opened]
    exact shrunk.path named

/-! ## One removal -/

/-- What the removals need of a table, and keep. -/
structure Tidy (table : InodeTable) : Prop where
  indexed : ∀ {ino : Ino} {entry : InodeEntry}, table.get ino = some entry →
    entry.Indexed
  leaf : ∀ {ino : Ino} {entry : InodeEntry}, table.get ino = some entry →
    entry.kind = .file → entry.children = []
  listed : ∀ {dir ino other : Ino} {name : Name} {entry : InodeEntry},
    table.get dir = some entry → ⟨ino, name⟩ ∈ entry.children →
    table.pathToInode (childPath entry.fullPath name) = some other →
    other = ino

theorem tidy_of_wellFormed {table : InodeTable} (wf : table.WellFormed) :
    Tidy table := by
  refine ⟨fun found => wf.indexed found, ?_, ?_⟩
  · intro ino entry found file
    apply wf.children_of_file found
    rw [file]
    decide
  · intro dir ino other name entry found inChildren mapped
    obtain ⟨childEntry, isChild⟩ := wf.child found inChildren
    have own := wf.path.mpr
      ⟨childEntry, isChild.found, isChild.live, isChild.fullPath⟩
    exact Option.some.inj (mapped.symm.trans own)

theorem Tidy.shrunk {before after : InodeTable} (tidy : Tidy before)
    (shrunk : Shrunk before after) : Tidy after := by
  refine ⟨?_, ?_, ?_⟩
  · intro ino new found
    obtain ⟨old, foundOld, narrow⟩ := shrunk.entry found
    exact narrow.indexed (tidy.indexed foundOld)
  · intro ino new found file
    obtain ⟨old, foundOld, narrow⟩ := shrunk.entry found
    have none := tidy.leaf foundOld (narrow.kind ▸ file)
    rw [List.eq_nil_iff_forall_not_mem] at none ⊢
    exact fun child listed => none child (narrow.children child listed)
  · intro dir ino other name new found inChildren mapped
    obtain ⟨old, foundOld, narrow⟩ := shrunk.entry found
    rw [narrow.fullPath] at mapped
    exact tidy.listed foundOld (narrow.children _ inChildren)
      (shrunk.path mapped)

/-- In a tidy table the index and the list of children agree. -/
theorem Tidy.slot_iff {table : InodeTable} (tidy : Tidy table) {dir ino : Ino}
    {name : Name} : slot table dir name = some ino ↔
      Listed table dir name ino := by
  constructor
  · intro found
    obtain ⟨entry, got, atName⟩ := Option.bind_eq_some_iff.mp found
    exact ⟨entry, got, ((tidy.indexed got).index name ino).mp atName⟩
  · rintro ⟨entry, got, inChildren⟩
    exact Option.bind_eq_some_iff.mpr
      ⟨entry, got, ((tidy.indexed got).index name ino).mpr inChildren⟩

theorem shrunk_put {table : InodeTable} {ino : Ino} {old new : InodeEntry}
    (found : table.get ino = some old) (narrow : Narrowed old new) :
    Shrunk table (table.put ino new) := by
  refine ⟨?_, fun mapped => mapped⟩
  intro target entry got
  rw [InodeTable.get_put] at got
  split at got <;> rename_i same
  · obtain rfl := Option.some.inj got
    exact ⟨old, same ▸ found, narrow⟩
  · exact ⟨entry, got, .refl _⟩

theorem shrunk_modify (table : InodeTable) (ino : Ino)
    {change : InodeEntry → InodeEntry}
    (narrow : ∀ entry, Narrowed entry (change entry)) :
    Shrunk table (table.modify ino change) := by
  cases found : table.get ino with
  | none =>
      rw [InodeTable.modify_of_none found]
      exact .refl table
  | some entry =>
      rw [InodeTable.modify_of_some found]
      exact shrunk_put found (narrow entry)

theorem shrunk_removePath (table : InodeTable) (path : Path) :
    Shrunk table (table.removePath path) := by
  refine ⟨fun found => ⟨_, found, .refl _⟩, ?_⟩
  intro other ino mapped
  unfold InodeTable.removePath at mapped
  dsimp only at mapped
  by_cases same : other = path
  · rw [same, Function.update_self] at mapped
    cases mapped
  · rwa [Function.update_of_ne same] at mapped

theorem shrunk_erase (table : InodeTable) (ino : Ino) :
    Shrunk table (table.erase ino) := by
  refine ⟨?_, fun mapped => mapped⟩
  intro other entry got
  rw [InodeTable.get_erase] at got
  split at got
  · cases got
  · exact ⟨entry, got, .refl _⟩

theorem shrunk_unlinkOne (table : InodeTable) (parent : Ino) (name : Name)
    (now : Time) : Shrunk table (table.unlinkOne parent name now).2 := by
  unfold InodeTable.unlinkOne
  split
  · exact .refl table
  split
  · exact .refl table
  dsimp only
  have unnamed : ∀ path, Shrunk table
      ((table.modify parent (·.removeChildByName name)).removePath path) :=
    fun path => (shrunk_modify table parent fun entry =>
      narrowed_removeChildByName entry name).trans (shrunk_removePath _ path)
  split <;> rename_i found
  · exact unnamed _
  · refine (unnamed _).trans (shrunk_put found ?_)
    exact ⟨rfl, rfl, rfl, rfl, rfl, rfl, rfl, rfl, fun _ listed => listed,
      fun _ _ found => found, fun given => ⟨given.nodup, given.index⟩⟩

theorem shrunk_dropEntry (table : InodeTable) (ino : Ino) :
    Shrunk table (table.dropEntry ino) := by
  unfold InodeTable.dropEntry
  split
  · exact (shrunk_erase table ino).trans (shrunk_removePath _ _)
  · exact .refl table

theorem shrunk_remove (table : InodeTable) (ino : Ino) :
    Shrunk table (table.remove ino) := by
  have dropped : ∀ (inos : List Ino) (current : InodeTable),
      Shrunk current (inos.foldl InodeTable.dropEntry current) := by
    intro inos
    induction inos with
    | nil => exact fun current => .refl current
    | cons first inos ih =>
        exact fun current => (shrunk_dropEntry current first).trans (ih _)
  unfold InodeTable.remove
  split
  · exact .refl table
  · refine ((shrunk_dropEntry table ino).trans ?_).trans (dropped _ _)
    exact shrunk_modify _ _ fun parentEntry =>
      narrowed_shrunkParent parentEntry ino _

/-- The inodes to remove are files. -/
def IsFile (table : InodeTable) (ino : Ino) : Prop :=
  ∀ entry, table.get ino = some entry → entry.kind = .file

theorem IsFile.shrunk {before after : InodeTable} {ino : Ino}
    (file : IsFile before ino) (shrunk : Shrunk before after) :
    IsFile after ino := by
  intro new found
  obtain ⟨old, foundOld, narrow⟩ := shrunk.entry found
  exact narrow.kind.trans (file old foundOld)

theorem shrunk_removeRemoteFile (table : InodeTable) (ino : Ino)
    (now : Time) : Shrunk table (removeRemoteFile table ino now).2.1 := by
  unfold removeRemoteFile
  split
  · exact .refl table
  split
  · exact .refl table
  dsimp only
  split
  · exact shrunk_unlinkOne _ _ _ _
  · exact shrunk_remove _ _

/-! ## Whom a removal touches -/

/-- A tidy table that shrinks leaves an inode untouched if the inode keeps its
entry, its place and its path. -/
theorem untouched_of_shrunk {before after : InodeTable} (tidy : Tidy before)
    (shrunk : Shrunk before after) {ino : Ino}
    (entry : ∃ old new : InodeEntry, before.get ino = some old ∧
      after.get ino = some new ∧ new.nlink = old.nlink ∧ new.size = old.size ∧
      new.xetHash = old.xetHash ∧ new.dirtyGeneration = old.dirtyGeneration)
    (listed : ∀ dir name, Listed before dir name ino →
      Listed after dir name ino)
    (path : ∀ path, before.pathToInode path = some ino →
      after.pathToInode path = some ino) : Untouched before after ino := by
  have same : ∀ dir name, Listed after dir name ino ↔
      Listed before dir name ino :=
    fun dir name => ⟨shrunk.listed, listed dir name⟩
  refine ⟨entry, same, ?_, fun path' => ⟨shrunk.path, path path'⟩⟩
  intro dir name
  rw [(tidy.shrunk shrunk).slot_iff, tidy.slot_iff]
  exact same dir name

theorem slot_put {table : InodeTable} {ino : Ino} {old new : InodeEntry}
    (found : table.get ino = some old) (same : new.childIndex = old.childIndex)
    (dir : Ino) (name : Name) :
    slot (table.put ino new) dir name = slot table dir name := by
  unfold slot
  rw [InodeTable.get_put]
  split <;> rename_i here
  · rw [here, found, Option.bind_some, Option.bind_some, same]
  · rfl

theorem untouched_put {table : InodeTable} {ino other : Ino}
    {entry old new : InodeEntry} (found : table.get ino = some entry)
    (distinct : ino ≠ other) (foundOther : table.get other = some old)
    (children : new.children = old.children)
    (childIndex : new.childIndex = old.childIndex) :
    Untouched table (table.put other new) ino := by
  refine ⟨⟨entry, entry, found,
    (table.get_put_of_ne distinct new).trans found, rfl, rfl, rfl, rfl⟩, ?_, ?_,
    fun _ => Iff.rfl⟩
  · intro dir name
    unfold Listed
    rw [InodeTable.get_put]
    split <;> rename_i same
    · rw [same, foundOther]
      simp [children]
    · exact Iff.rfl
  · intro dir name
    rw [slot_put foundOther childIndex]

/-- Unlinking a name touches only the inode under it. -/
theorem untouched_unlinkOne {table : InodeTable} (tidy : Tidy table)
    {ino parent : Ino} {name : Name} {entry : InodeEntry}
    (found : table.get ino = some entry)
    (elsewhere : slot table parent name ≠ some ino) (now : Time) :
    Untouched table (table.unlinkOne parent name now).2 ino := by
  unfold InodeTable.unlinkOne
  split <;> rename_i foundParent
  · exact .refl found
  rename_i parentEntry
  split <;> rename_i atName
  · exact .refl found
  rename_i child
  dsimp only
  have distinct : ino ≠ child := by
    rintro rfl
    exact elsewhere (Option.bind_eq_some_iff.mpr ⟨_, foundParent, atName⟩)
  have indexed := tidy.indexed foundParent
  have inParent := (indexed.index name child).mp atName
  have unnamed : Untouched table
      ((table.modify parent (·.removeChildByName name)).removePath
        (childPath parentEntry.fullPath name)) ino := by
    apply untouched_of_shrunk tidy ((shrunk_modify table parent fun entry =>
      narrowed_removeChildByName entry name).trans (shrunk_removePath _ _))
    · rw [InodeTable.get_removePath, InodeTable.get_modify]
      split <;> rename_i isParent
      · subst isParent
        refine ⟨entry, entry.removeChildByName name, found, by rw [found]; rfl,
          ?_⟩
        unfold InodeEntry.removeChildByName
        split <;> exact ⟨rfl, rfl, rfl, rfl⟩
      · exact ⟨entry, entry, found, found, rfl, rfl, rfl, rfl⟩
    · rintro dir other ⟨dirEntry, foundDir, listed⟩
      unfold Listed
      rw [InodeTable.get_removePath, InodeTable.get_modify]
      split <;> rename_i isParent
      · subst isParent
        obtain rfl := Option.some.inj (foundDir.symm.trans foundParent)
        refine ⟨dirEntry.removeChildByName name, by rw [foundDir]; rfl,
          (InodeEntry.mem_removeChildByName indexed).mpr ⟨listed, ?_⟩⟩
        rintro rfl
        exact distinct (indexed.ino_eq listed inParent)
      · exact ⟨dirEntry, foundDir, listed⟩
    · intro path mapped
      have apart : path ≠ childPath parentEntry.fullPath name := by
        rintro rfl
        exact distinct (tidy.listed foundParent inParent mapped)
      simp only [InodeTable.removePath, InodeTable.pathToInode_modify,
        Function.update_of_ne apart, mapped]
  split <;> rename_i foundChild
  · exact unnamed
  · obtain ⟨_, kept, _, foundKept, _⟩ := unnamed.entry
    exact unnamed.trans (untouched_put foundKept distinct foundChild rfl rfl)

/-- Removing a file touches only itself and the inode at its path. -/
theorem untouched_remove_leaf {table : InodeTable} (tidy : Tidy table)
    {ino other : Ino} {entry otherEntry : InodeEntry}
    (found : table.get ino = some entry) (distinct : ino ≠ other)
    (foundOther : table.get other = some otherEntry)
    (file : otherEntry.kind = .file)
    (elsewhere : table.pathToInode otherEntry.fullPath ≠ some ino) :
    Untouched table (table.remove other) ino := by
  have leaf := tidy.leaf foundOther file
  apply untouched_of_shrunk tidy (shrunk_remove _ _)
  · rw [InodeTable.remove_of_leaf foundOther leaf, InodeTable.detachFromParent,
      InodeTable.get_modify]
    have kept : ((table.erase other).removePath otherEntry.fullPath).get ino =
        some entry := by
      rw [InodeTable.get_removePath, InodeTable.get_erase, if_neg distinct,
        found]
    split <;> rename_i isParent
    · subst isParent
      have content :=
        InodeTable.sameContent_shrunkParent entry other otherEntry.kind
      refine ⟨entry, InodeTable.shrunkParent entry other otherEntry.kind, found,
        by rw [kept]; rfl, ?_, content.size, content.xetHash,
        content.dirtyGeneration⟩
      rw [file]
      exact InodeTable.nlink_shrunkParent_file entry other
    · exact ⟨entry, entry, found, kept, rfl, rfl, rfl, rfl⟩
  · rintro dir name ⟨dirEntry, foundDir, listed⟩
    have dirKept : dir ≠ other := by
      rintro rfl
      obtain rfl := Option.some.inj (foundDir.symm.trans foundOther)
      rw [leaf] at listed
      cases listed
    have kept : ((table.erase other).removePath otherEntry.fullPath).get dir =
        some dirEntry := by
      rw [InodeTable.get_removePath, InodeTable.get_erase, if_neg dirKept,
        foundDir]
    rw [InodeTable.remove_of_leaf foundOther leaf, InodeTable.detachFromParent]
    unfold Listed
    rw [InodeTable.get_modify]
    split <;> rename_i isParent
    · subst isParent
      refine ⟨_, by rw [kept]; rfl, ?_⟩
      exact (InodeEntry.mem_removeChildByIno
        (tidy.indexed foundDir).nodup).mpr
        ⟨listed, distinct⟩
    · exact ⟨dirEntry, kept, listed⟩
  · intro path mapped
    have apart : path ≠ otherEntry.fullPath := by
      rintro rfl
      exact elsewhere mapped
    rw [InodeTable.remove_of_leaf foundOther leaf, InodeTable.detachFromParent_path]
    exact (Function.update_of_ne apart _ _).trans mapped

/-- A removal touches no dirty inode but its target. -/
theorem untouched_removeRemoteFile {table : InodeTable} (tidy : Tidy table)
    {ino other : Ino} {entry : InodeEntry}
    (found : table.get ino = some entry) (dirty : entry.isDirty = true)
    (file : IsFile table other) (spared : deletionTarget table other ≠ some ino)
    (now : Time) : Untouched table (removeRemoteFile table other now).2.1 ino := by
  unfold removeRemoteFile
  split <;> rename_i foundOther
  · exact .refl found
  rename_i otherEntry
  split <;> rename_i clean
  · exact .refl found
  have distinct : ino ≠ other := by
    rintro rfl
    rw [Option.some.inj (foundOther.symm.trans found)] at clean
    exact clean dirty
  unfold deletionTarget at spared
  rw [foundOther, Option.bind_some, if_neg clean] at spared
  dsimp only
  unfold InodeTable.hasOpenHandles
  rw [foundOther, Option.any_some]
  split <;> rename_i opened
  · rw [if_pos opened] at spared
    exact untouched_unlinkOne tidy found spared now
  · rw [if_neg opened] at spared
    exact untouched_remove_leaf tidy found distinct foundOther
      (file _ foundOther) spared

/-- The target loses its name or its path. -/
theorem removeRemoteFile_hits {table : InodeTable} {ino target : Ino}
    (tidy : Tidy table) (file : IsFile table ino)
    (hit : deletionTarget table ino = some target) (now : Time) :
    (∃ dir name, slot table dir name = some target ∧
      slot (removeRemoteFile table ino now).2.1 dir name ≠ some target) ∨
    ∃ path, table.pathToInode path = some target ∧
      (removeRemoteFile table ino now).2.1.pathToInode path ≠ some target := by
  obtain ⟨entry, found, named⟩ := Option.bind_eq_some_iff.mp hit
  unfold removeRemoteFile
  simp only [found]
  split at named <;> rename_i dirty
  · cases named
  rw [if_neg dirty]
  unfold InodeTable.hasOpenHandles
  rw [found, Option.any_some]
  dsimp only
  split at named <;> rename_i opened
  · left
    refine ⟨entry.parent, entry.name, named, ?_⟩
    rw [if_pos opened]
    obtain ⟨parentEntry, foundParent, atName⟩ :=
      Option.bind_eq_some_iff.mp named
    have gone : slot ((table.modify entry.parent
        (·.removeChildByName entry.name)).removePath
          (childPath parentEntry.fullPath entry.name)) entry.parent
        entry.name = none := by
      unfold slot
      rw [InodeTable.get_removePath, InodeTable.get_modify, if_pos rfl,
        foundParent]
      simp [InodeEntry.removeChildByName, atName]
    simp only [InodeTable.unlinkOne, foundParent, atName]
    split <;> rename_i foundTarget
    · rw [gone]
      exact fun absent => by cases absent
    · rename_i targetEntry
      have kept : ∀ new : InodeEntry,
          new.childIndex = targetEntry.childIndex →
          slot (((table.modify entry.parent
            (·.removeChildByName entry.name)).removePath
              (childPath parentEntry.fullPath entry.name)).put target new)
            entry.parent entry.name ≠ some target := by
        intro new same
        rw [slot_put foundTarget same, gone]
        exact fun absent => by cases absent
      exact kept _ rfl
  · right
    refine ⟨entry.fullPath, named, ?_⟩
    rw [if_neg opened, InodeTable.remove_of_leaf found (tidy.leaf found (file _ found)),
      InodeTable.detachFromParent_path]
    intro mapped
    simp [InodeTable.removePath] at mapped

/-! ## Removals that hit their own file -/

/-- What a removal hits is the file itself when the file is in the tree. -/
theorem deletionTarget_of_live {table : InodeTable} (wf : table.WellFormed)
    {ino target : Ino} {entry : InodeEntry}
    (found : table.get ino = some entry) (notRoot : ino ≠ rootInode)
    (live : entry.isLive = true)
    (hit : deletionTarget table ino = some target) : target = ino := by
  obtain ⟨again, foundAgain, named⟩ := Option.bind_eq_some_iff.mp hit
  obtain rfl := Option.some.inj (found.symm.trans foundAgain)
  split at named
  · cases named
  split at named
  · obtain ⟨parentEntry, foundParent, _, _, listed, _⟩ :=
      wf.parent found notRoot live
    have own : slot table entry.parent entry.name = some ino :=
      Option.bind_eq_some_iff.mpr ⟨parentEntry, foundParent,
        ((wf.indexed foundParent).index entry.name ino).mpr listed⟩
    exact Option.some.inj (named.symm.trans own)
  · have own := wf.path.mpr ⟨entry, found, live, rfl⟩
    exact Option.some.inj (named.symm.trans own)

/-- The table after unlinking a name that nothing has. -/
theorem unlinkOne_of_free {table : InodeTable} {parent : Ino} {name : Name}
    (free : slot table parent name = none) (now : Time) :
    (table.unlinkOne parent name now).2 = table := by
  unfold InodeTable.unlinkOne
  unfold slot at free
  split <;> rename_i found
  · rfl
  · rw [found, Option.bind_some] at free
    rw [free]

/-- A removal that hits no other inode does nothing, unlinks the file under
its own name, or removes it with its own path. -/
theorem removeRemoteFile_cases {table : InodeTable} {ino : Ino}
    (file : IsFile table ino)
    (own : ∀ target, deletionTarget table ino = some target → target = ino)
    (now : Time) :
    (removeRemoteFile table ino now).2.1 = table ∨
      ∃ entry, table.get ino = some entry ∧ entry.kind ≠ .directory ∧
        ((removeRemoteFile table ino now).2.1 =
            (table.unlinkOne entry.parent entry.name now).2 ∧
          table.lookupChild entry.parent entry.name = some entry ∨
        (removeRemoteFile table ino now).2.1 = table.remove ino ∧
          ∀ target, table.pathToInode entry.fullPath = some target →
            target = ino) := by
  unfold removeRemoteFile
  split <;> rename_i found
  · exact Or.inl rfl
  rename_i entry
  split <;> rename_i clean
  · exact Or.inl rfl
  dsimp only
  have notDirectory : entry.kind ≠ .directory := by
    rw [file entry found]
    decide
  unfold deletionTarget at own
  rw [found, Option.bind_some, if_neg clean] at own
  unfold InodeTable.hasOpenHandles
  rw [found, Option.any_some]
  split <;> rename_i opened
  · rw [if_pos opened] at own
    cases named : slot table entry.parent entry.name with
    | none =>
        rw [unlinkOne_of_free named]
        exact Or.inl rfl
    | some target =>
        obtain rfl := own target named
        exact Or.inr ⟨entry, rfl, notDirectory, Or.inl ⟨rfl,
          Option.bind_eq_some_iff.mpr ⟨target, named, found⟩⟩⟩
  · rw [if_neg opened] at own
    exact Or.inr ⟨entry, rfl, notDirectory, Or.inr ⟨rfl, own⟩⟩

/-- A removal that hits no other inode keeps the tree in order. -/
theorem wellFormed_removeRemoteFile {table : InodeTable}
    (wf : table.WellFormed) {ino : Ino} (file : IsFile table ino)
    (own : ∀ target, deletionTarget table ino = some target → target = ino)
    (now : Time) : (removeRemoteFile table ino now).2.1.WellFormed := by
  rcases removeRemoteFile_cases file own now with
    same | ⟨entry, found, notDirectory, ⟨same, looked⟩ | ⟨same, ownPath⟩⟩
  · rw [same]
    exact wf
  · rw [same]
    exact wf.pruned (InodeTable.pruned_unlinkOne wf looked notDirectory now)
  · rw [same]
    exact wf.remove found (wf.ne_root_of_file found notDirectory) ownPath

end HfMount.Poll
