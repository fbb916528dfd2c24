import HfMount.Inode.Table

/-!
# Well-formed inode tables

The live inodes form a tree: every one but the root is listed once, under its
name, in the directory that it names as its parent, and its full path is that
of the directory followed by its name.  The path mapping is exactly that of
the live inodes.  An inode without links stays in the table while a handle is
open; it keeps its last path and is in no directory.
-/

namespace HfMount.Inode

open SlashPath

namespace InodeEntry

/-- A directory, or a file or symlink that still has a link. -/
def isLive (entry : InodeEntry) : Bool :=
  entry.kind = .directory || decide (0 < entry.nlink)

/-- The same place in the tree; children and everything else may differ. -/
structure SamePlace (left right : InodeEntry) : Prop where
  inode : right.inode = left.inode
  parent : right.parent = left.parent
  name : right.name = left.name
  fullPath : right.fullPath = left.fullPath
  kind : right.kind = left.kind
  links : left.kind ≠ .directory → right.nlink = left.nlink

/-- The same place in the tree and the same children. -/
structure SameNode (left right : InodeEntry) : Prop
    extends SamePlace left right where
  children : right.children = left.children
  childIndex : right.childIndex = left.childIndex

/-- The same node with the same number of links. -/
structure SameLinks (left right : InodeEntry) : Prop
    extends SameNode left right where
  nlink : right.nlink = left.nlink

/-- The same content, as far as the remote is concerned. -/
structure SameContent (left right : InodeEntry) : Prop where
  size : right.size = left.size
  xetHash : right.xetHash = left.xetHash
  dirtyGeneration : right.dirtyGeneration = left.dirtyGeneration
  pendingDeletes : right.pendingDeletes = left.pendingDeletes
  childrenLoadedAt : right.childrenLoadedAt = left.childrenLoadedAt

theorem SameContent.refl (entry : InodeEntry) : entry.SameContent entry :=
  ⟨rfl, rfl, rfl, rfl, rfl⟩

theorem SamePlace.refl (entry : InodeEntry) : entry.SamePlace entry :=
  ⟨rfl, rfl, rfl, rfl, rfl, fun _ => rfl⟩

theorem SamePlace.trans {first second third : InodeEntry}
    (left : first.SamePlace second) (right : second.SamePlace third) :
    first.SamePlace third :=
  ⟨right.inode.trans left.inode, right.parent.trans left.parent,
    right.name.trans left.name, right.fullPath.trans left.fullPath,
    right.kind.trans left.kind,
    fun file => (right.links (left.kind ▸ file)).trans (left.links file)⟩

theorem SameNode.refl (entry : InodeEntry) : entry.SameNode entry :=
  ⟨.refl entry, rfl, rfl⟩

theorem SameNode.trans {first second third : InodeEntry}
    (left : first.SameNode second) (right : second.SameNode third) :
    first.SameNode third :=
  ⟨left.toSamePlace.trans right.toSamePlace,
    right.children.trans left.children,
    right.childIndex.trans left.childIndex⟩

theorem SameLinks.refl (entry : InodeEntry) : entry.SameLinks entry :=
  ⟨.refl entry, rfl⟩

theorem SameLinks.trans {first second third : InodeEntry}
    (left : first.SameLinks second) (right : second.SameLinks third) :
    first.SameLinks third :=
  ⟨left.toSameNode.trans right.toSameNode, right.nlink.trans left.nlink⟩

/-- The fields that the place, the children and the links of an entry are. -/
def linkFields (entry : InodeEntry) :=
  (entry.inode, entry.parent, entry.name, entry.fullPath, entry.kind,
    entry.nlink, entry.children, entry.childIndex)

theorem SameLinks.of_fields {left right : InodeEntry}
    (same : right.linkFields = left.linkFields) : left.SameLinks right := by
  simp only [linkFields, Prod.mk.injEq] at same
  obtain ⟨inode, parent, name, fullPath, kind, nlink, children, childIndex⟩ :=
    same
  exact ⟨⟨⟨inode, parent, name, fullPath, kind, fun _ => nlink⟩, children,
    childIndex⟩, nlink⟩

theorem sameLinks_setDirty (entry : InodeEntry) :
    entry.SameLinks entry.setDirty :=
  .of_fields rfl

theorem SameNode.of_fields {left right : InodeEntry}
    (same : right.linkFields = left.linkFields) : left.SameNode right :=
  (SameLinks.of_fields same).toSameNode

theorem SamePlace.isLive {left right : InodeEntry}
    (same : left.SamePlace right) : right.isLive = left.isLive := by
  unfold InodeEntry.isLive
  rw [same.kind]
  by_cases directory : left.kind = .directory
  · simp [directory]
  · rw [same.links directory]

theorem SameNode.indexed {left right : InodeEntry}
    (same : left.SameNode right) (indexed : left.Indexed) : right.Indexed := by
  constructor
  · rw [same.children]
    exact indexed.nodup
  · rw [same.children, same.childIndex]
    exact indexed.index

theorem isLive_of_directory {entry : InodeEntry}
    (directory : entry.kind = .directory) : entry.isLive = true := by
  simp [isLive, directory]

end InodeEntry

namespace InodeTable

/-- `child` is listed in the directory `parent` and its entry agrees. -/
structure IsChild (table : InodeTable) (parent : Ino)
    (parentEntry : InodeEntry) (child : DirChild) (entry : InodeEntry) :
    Prop where
  found : table.get child.ino = some entry
  parent : entry.parent = parent
  name : entry.name = child.name
  fullPath : entry.fullPath = childPath parentEntry.fullPath child.name
  live : entry.isLive = true

structure WellFormed (table : InodeTable) : Prop where
  root : ∃ entry, table.get rootInode = some entry ∧
    entry.kind = .directory ∧ entry.fullPath = []
  key : ∀ {ino entry}, table.get ino = some entry →
    entry.inode = ino ∧ ino < table.nextInode
  indexed : ∀ {ino entry}, table.get ino = some entry → entry.Indexed
  links : ∀ {ino entry}, table.get ino = some entry →
    entry.kind ≠ .directory → entry.nlink ≤ 1
  directory : ∀ {ino entry child}, table.get ino = some entry →
    child ∈ entry.children →
    entry.kind = .directory ∧ child.ino ≠ rootInode ∧ ValidName child.name
  child : ∀ {ino entry child}, table.get ino = some entry →
    child ∈ entry.children →
    ∃ childEntry, table.IsChild ino entry child childEntry
  attached : ∀ {ino entry}, table.get ino = some entry → ino ≠ rootInode →
    entry.isLive = true → ∃ parentEntry,
      table.get entry.parent = some parentEntry ∧
      ⟨ino, entry.name⟩ ∈ parentEntry.children
  path : ∀ {path ino}, table.pathToInode path = some ino ↔
    ∃ entry, table.get ino = some entry ∧ entry.isLive = true ∧
      entry.fullPath = path

theorem wellFormed_new : new.WellFormed := by
  have root : new.get rootInode = some rootEntry := rfl
  constructor
  · exact ⟨rootEntry, root, rfl, rfl⟩
  · intro ino entry found
    obtain ⟨rfl, rfl⟩ := eq_root_of_get_new found
    exact ⟨rfl, by decide⟩
  · intro ino entry found
    obtain ⟨rfl, rfl⟩ := eq_root_of_get_new found
    exact InodeEntry.indexed_of_no_children rfl fun _ => rfl
  · intro ino entry found file
    obtain ⟨rfl, rfl⟩ := eq_root_of_get_new found
    exact absurd rfl file
  · intro ino entry child found listed
    obtain ⟨rfl, rfl⟩ := eq_root_of_get_new found
    cases listed
  · intro ino entry child found listed
    obtain ⟨rfl, rfl⟩ := eq_root_of_get_new found
    cases listed
  · intro ino entry found notRoot
    obtain ⟨rfl, rfl⟩ := eq_root_of_get_new found
    exact absurd rfl notRoot
  · intro path ino
    constructor
    · intro mapped
      by_cases empty : path = []
      · subst empty
        simp only [new, Function.update_self, Option.some.injEq] at mapped
        subst mapped
        exact ⟨rootEntry, root, rfl, rfl⟩
      · simp [new, Function.update_of_ne empty] at mapped
    · rintro ⟨entry, found, _, rfl⟩
      obtain ⟨rfl, rfl⟩ := eq_root_of_get_new found
      simp [new, rootEntry, InodeEntry.new]

/-! ## The tree of live inodes -/

namespace WellFormed

variable {table : InodeTable}

theorem unique (wf : table.WellFormed) {left right : Ino}
    {leftEntry rightEntry : InodeEntry} (foundLeft : table.get left = some leftEntry)
    (foundRight : table.get right = some rightEntry)
    (liveLeft : leftEntry.isLive = true) (liveRight : rightEntry.isLive = true)
    (same : leftEntry.fullPath = rightEntry.fullPath) : left = right := by
  have mapped := wf.path.mpr ⟨leftEntry, foundLeft, liveLeft, rfl⟩
  rw [wf.path.mpr ⟨rightEntry, foundRight, liveRight, same.symm⟩] at mapped
  exact (Option.some.inj mapped).symm

/-- A live inode below the root is a child of its parent. -/
theorem parent (wf : table.WellFormed) {ino : Ino} {entry : InodeEntry}
    (found : table.get ino = some entry) (notRoot : ino ≠ rootInode)
    (live : entry.isLive = true) :
    ∃ parentEntry, table.get entry.parent = some parentEntry ∧
      parentEntry.kind = .directory ∧ ValidName entry.name ∧
      ⟨ino, entry.name⟩ ∈ parentEntry.children ∧
      entry.fullPath = childPath parentEntry.fullPath entry.name := by
  obtain ⟨parentEntry, foundParent, listed⟩ := wf.attached found notRoot live
  obtain ⟨directory, _, valid⟩ := wf.directory foundParent listed
  obtain ⟨childEntry, child⟩ := wf.child foundParent listed
  obtain rfl : entry = childEntry :=
    Option.some.inj (found.symm.trans child.found)
  exact ⟨parentEntry, foundParent, directory, valid, listed, child.fullPath⟩

theorem path_ne_nil (wf : table.WellFormed) {ino : Ino} {entry : InodeEntry}
    (found : table.get ino = some entry) (notRoot : ino ≠ rootInode)
    (live : entry.isLive = true) : entry.fullPath ≠ [] := by
  obtain ⟨parentEntry, _, _, valid, _, fullPath⟩ := wf.parent found notRoot live
  rw [fullPath]
  exact childPath_ne_nil valid _

theorem getByPath (wf : table.WellFormed) {path : Path} {entry : InodeEntry} :
    table.getByPath path = some entry ↔
      table.get entry.inode = some entry ∧ entry.isLive = true ∧
        entry.fullPath = path := by
  unfold InodeTable.getByPath
  constructor
  · intro found
    obtain ⟨ino, mapped, got⟩ := Option.bind_eq_some_iff.mp found
    obtain ⟨other, foundOther, live, fullPath⟩ := wf.path.mp mapped
    obtain rfl : other = entry := Option.some.inj (foundOther.symm.trans got)
    rw [(wf.key got).1]
    exact ⟨got, live, fullPath⟩
  · rintro ⟨found, live, fullPath⟩
    exact Option.bind_eq_some_iff.mpr
      ⟨entry.inode, wf.path.mpr ⟨entry, found, live, fullPath⟩, found⟩

theorem lookupChild (wf : table.WellFormed) {parent : Ino} {name : Name}
    {entry : InodeEntry} :
    table.lookupChild parent name = some entry ↔
      ∃ parentEntry, table.get parent = some parentEntry ∧
        ⟨entry.inode, name⟩ ∈ parentEntry.children ∧
        table.IsChild parent parentEntry ⟨entry.inode, name⟩ entry := by
  unfold InodeTable.lookupChild
  constructor
  · intro looked
    obtain ⟨ino, indexed, got⟩ := Option.bind_eq_some_iff.mp looked
    obtain ⟨parentEntry, found, atName⟩ := Option.bind_eq_some_iff.mp indexed
    have listed := ((wf.indexed found).index name ino).mp atName
    obtain ⟨childEntry, child⟩ := wf.child found listed
    obtain rfl : childEntry = entry :=
      Option.some.inj (child.found.symm.trans got)
    rw [(wf.key got).1]
    exact ⟨parentEntry, found, listed, child⟩
  · rintro ⟨parentEntry, found, listed, child⟩
    have atName := ((wf.indexed found).index name entry.inode).mpr listed
    rw [found]
    simp only [Option.bind_some, atName]
    exact child.found

theorem lookupChild_none (wf : table.WellFormed) {parent : Ino} {name : Name}
    {parentEntry : InodeEntry} (found : table.get parent = some parentEntry) :
    table.lookupChild parent name = none ↔
      parentEntry.childIndex name = none := by
  unfold InodeTable.lookupChild
  rw [found, Option.bind_some]
  constructor
  · intro missing
    cases atName : parentEntry.childIndex name with
    | none => rfl
    | some ino =>
        have listed := ((wf.indexed found).index name ino).mp atName
        obtain ⟨childEntry, child⟩ := wf.child found listed
        have got : table.get ino = some childEntry := child.found
        simp [atName, got] at missing
  · intro atName
    simp [atName]

/-- A path that is not mapped is that of a free name. -/
theorem free_of_path (wf : table.WellFormed) {parent : Ino} {name : Name}
    {parentEntry : InodeEntry} (found : table.get parent = some parentEntry)
    (unmapped :
      table.pathToInode (childPath parentEntry.fullPath name) = none) :
    parentEntry.childIndex name = none := by
  cases named : parentEntry.childIndex name with
  | none => rfl
  | some child =>
      have listed := ((wf.indexed found).index name child).mp named
      obtain ⟨childEntry, isChild⟩ := wf.child found listed
      rw [wf.path.mpr ⟨childEntry, isChild.found, isChild.live,
        isChild.fullPath⟩] at unmapped
      cases unmapped

/-- No live inode is at the path of a free name. -/
theorem path_of_free (wf : table.WellFormed) {parent : Ino} {name : Name}
    {parentEntry : InodeEntry} (found : table.get parent = some parentEntry)
    (directory : parentEntry.kind = .directory) (valid : ValidName name)
    (free : parentEntry.childIndex name = none) :
    table.pathToInode (childPath parentEntry.fullPath name) = none := by
  cases mapped : table.pathToInode (childPath parentEntry.fullPath name) with
  | none => rfl
  | some ino =>
      obtain ⟨entry, got, live, fullPath⟩ := wf.path.mp mapped
      have notRoot : ino ≠ rootInode := by
        rintro rfl
        obtain ⟨rootEntry, foundRoot, _, rootPath⟩ := wf.root
        obtain rfl : rootEntry = entry :=
          Option.some.inj (foundRoot.symm.trans got)
        exact childPath_ne_nil valid _ (fullPath.symm.trans rootPath)
      obtain ⟨otherParent, foundOther, otherDirectory, otherValid, listed,
        otherPath⟩ := wf.parent got notRoot live
      obtain ⟨samePath, sameName⟩ := childPath_injective otherValid valid
        (otherPath.symm.trans fullPath)
      have sameParent := wf.unique foundOther found
        (InodeEntry.isLive_of_directory otherDirectory)
        (InodeEntry.isLive_of_directory directory) samePath
      rw [sameParent, found] at foundOther
      obtain rfl := Option.some.inj foundOther
      rw [sameName] at listed
      rw [((wf.indexed found).index name ino).mpr listed] at free
      cases free

end WellFormed

/-! ## Changes that keep the tree -/

/-- The same inodes, each related to what it was, and the same mappings. -/
structure Corresponding (related : InodeEntry → InodeEntry → Prop)
    (before after : InodeTable) : Prop where
  forward : ∀ {ino : Ino} {entry : InodeEntry},
    before.get ino = some entry →
    ∃ other : InodeEntry, after.get ino = some other ∧ related entry other
  backward : ∀ {ino : Ino} {other : InodeEntry},
    after.get ino = some other →
    ∃ entry : InodeEntry, before.get ino = some entry ∧ related entry other
  path : after.pathToInode = before.pathToInode
  nextInode : after.nextInode = before.nextInode

section

variable {related : InodeEntry → InodeEntry → Prop}

theorem Corresponding.refl (reflexive : ∀ entry, related entry entry)
    (table : InodeTable) : Corresponding related table table :=
  ⟨fun found => ⟨_, found, reflexive _⟩, fun found => ⟨_, found, reflexive _⟩,
    rfl, rfl⟩

theorem Corresponding.trans
    (transitive : ∀ {first second third}, related first second →
      related second third → related first third)
    {first second third : InodeTable}
    (left : Corresponding related first second)
    (right : Corresponding related second third) :
    Corresponding related first third := by
  refine ⟨?_, ?_, right.path.trans left.path,
    right.nextInode.trans left.nextInode⟩
  · intro ino entry found
    obtain ⟨middle, foundMiddle, sameLeft⟩ := left.forward found
    obtain ⟨last, foundLast, sameRight⟩ := right.forward foundMiddle
    exact ⟨last, foundLast, transitive sameLeft sameRight⟩
  · intro ino entry found
    obtain ⟨middle, foundMiddle, sameRight⟩ := right.backward found
    obtain ⟨first, foundFirst, sameLeft⟩ := left.backward foundMiddle
    exact ⟨first, foundFirst, transitive sameLeft sameRight⟩

theorem Corresponding.mono {weak : InodeEntry → InodeEntry → Prop}
    {before after : InodeTable}
    (corresponding : Corresponding related before after)
    (weaken : ∀ left right, related left right → weak left right) :
    Corresponding weak before after :=
  ⟨fun found => let ⟨other, got, same⟩ := corresponding.forward found
      ⟨other, got, weaken _ _ same⟩,
    fun found => let ⟨entry, got, same⟩ := corresponding.backward found
      ⟨entry, got, weaken _ _ same⟩,
    corresponding.path, corresponding.nextInode⟩

theorem Corresponding.get_eq_none {before after : InodeTable}
    (corresponding : Corresponding related before after) {ino : Ino}
    (missing : before.get ino = none) : after.get ino = none := by
  cases got : after.get ino with
  | none => rfl
  | some other =>
      obtain ⟨entry, found, _⟩ := corresponding.backward got
      rw [missing] at found
      cases found

/-- What related entries share can be read from either table. -/
theorem Corresponding.bind_get {α : Type} {before after : InodeTable}
    (corresponding : Corresponding related before after)
    {read : InodeEntry → Option α}
    (same : ∀ left right, related left right → read right = read left)
    (ino : Ino) : (after.get ino).bind read = (before.get ino).bind read := by
  cases found : before.get ino with
  | none => rw [corresponding.get_eq_none found]
  | some entry =>
      obtain ⟨other, got, isRelated⟩ := corresponding.forward found
      rw [got, Option.bind_some, Option.bind_some, same entry other isRelated]

theorem corresponding_put (reflexive : ∀ entry, related entry entry)
    {table : InodeTable} {ino : Ino} {entry other : InodeEntry}
    (found : table.get ino = some entry) (same : related entry other) :
    Corresponding related table (table.put ino other) := by
  refine ⟨?_, ?_, rfl, rfl⟩
  · intro target targetEntry got
    rw [get_put]
    split <;> rename_i hit
    · subst hit
      obtain rfl := Option.some.inj (found.symm.trans got)
      exact ⟨other, rfl, same⟩
    · exact ⟨targetEntry, got, reflexive _⟩
  · intro target targetEntry got
    rw [get_put] at got
    split at got <;> rename_i hit
    · subst hit
      obtain rfl := Option.some.inj got
      exact ⟨entry, found, same⟩
    · exact ⟨targetEntry, got, reflexive _⟩

theorem corresponding_modify (reflexive : ∀ entry, related entry entry)
    (table : InodeTable) (ino : Ino) {change : InodeEntry → InodeEntry}
    (same : ∀ entry, related entry (change entry)) :
    Corresponding related table (table.modify ino change) := by
  cases found : table.get ino with
  | none =>
      rw [modify_of_none found]
      exact .refl reflexive table
  | some entry =>
      rw [modify_of_some found]
      exact corresponding_put reflexive found (same entry)

/-- Two changes of one inode whose results are related. -/
theorem corresponding_modify_modify (reflexive : ∀ entry, related entry entry)
    (table : InodeTable) (ino : Ino) {left right : InodeEntry → InodeEntry}
    (same : ∀ entry, related (left entry) (right entry)) :
    Corresponding related (table.modify ino left) (table.modify ino right) := by
  cases found : table.get ino with
  | none =>
      rw [modify_of_none found, modify_of_none found]
      exact .refl reflexive table
  | some entry =>
      rw [modify_of_some found, modify_of_some found]
      have put := corresponding_put reflexive
        (table.get_put_self ino (left entry)) (same entry)
      have again : (table.put ino (left entry)).put ino (right entry) =
          table.put ino (right entry) := by
        unfold InodeTable.put
        rw [AList.insert_insert]
      rwa [again] at put

end

/-- Every inode is in the same place, and the mappings agree. -/
abbrev Similar (before after : InodeTable) : Prop :=
  Corresponding InodeEntry.SameNode before after

theorem Similar.refl (table : InodeTable) : table.Similar table :=
  Corresponding.refl .refl table

theorem Similar.trans {first second third : InodeTable}
    (left : first.Similar second) (right : second.Similar third) :
    first.Similar third :=
  Corresponding.trans .trans left right

theorem similar_modify (table : InodeTable) (ino : Ino)
    {change : InodeEntry → InodeEntry}
    (same : ∀ entry : InodeEntry, entry.SameNode (change entry)) :
    table.Similar (table.modify ino change) :=
  corresponding_modify .refl table ino same

theorem similar_touchParent (table : InodeTable) (parent : Ino) (now : Time) :
    table.Similar (table.touchParent parent now) :=
  table.similar_modify parent fun _ =>
    .of_fields rfl

theorem Corresponding.similar {before after : InodeTable}
    (same : Corresponding InodeEntry.SameLinks before after) :
    before.Similar after :=
  same.mono fun _ _ links => links.toSameNode

theorem WellFormed.similar {before after : InodeTable}
    (wf : before.WellFormed) (similar : before.Similar after) :
    after.WellFormed := by
  constructor
  · obtain ⟨entry, found, directory, fullPath⟩ := wf.root
    obtain ⟨other, foundOther, same⟩ := similar.forward found
    exact ⟨other, foundOther, same.kind.trans directory,
      same.fullPath.trans fullPath⟩
  · intro ino other found
    obtain ⟨entry, foundEntry, same⟩ := similar.backward found
    rw [same.inode, similar.nextInode]
    exact wf.key foundEntry
  · intro ino other found
    obtain ⟨entry, foundEntry, same⟩ := similar.backward found
    exact same.indexed (wf.indexed foundEntry)
  · intro ino other found file
    obtain ⟨entry, foundEntry, same⟩ := similar.backward found
    have fileEntry : entry.kind ≠ .directory := same.kind ▸ file
    rw [same.links fileEntry]
    exact wf.links foundEntry fileEntry
  · intro ino other child found listed
    obtain ⟨entry, foundEntry, same⟩ := similar.backward found
    rw [same.children] at listed
    rw [same.kind]
    exact wf.directory foundEntry listed
  · intro ino other child found listed
    obtain ⟨entry, foundEntry, same⟩ := similar.backward found
    rw [same.children] at listed
    obtain ⟨childEntry, isChild⟩ := wf.child foundEntry listed
    obtain ⟨childOther, foundChild, sameChild⟩ := similar.forward isChild.found
    refine ⟨childOther, foundChild, sameChild.parent.trans isChild.parent,
      sameChild.name.trans isChild.name, ?_,
      sameChild.isLive.trans isChild.live⟩
    rw [sameChild.fullPath, same.fullPath]
    exact isChild.fullPath
  · intro ino other found notRoot live
    obtain ⟨entry, foundEntry, same⟩ := similar.backward found
    obtain ⟨parentEntry, foundParent, listed⟩ :=
      wf.attached foundEntry notRoot (same.isLive.symm.trans live)
    obtain ⟨parentOther, foundOther, sameParent⟩ := similar.forward foundParent
    refine ⟨parentOther, ?_, ?_⟩
    · rw [same.parent]
      exact foundOther
    · rw [same.name, sameParent.children]
      exact listed
  · intro path ino
    rw [similar.path, wf.path]
    constructor
    · rintro ⟨entry, found, live, fullPath⟩
      obtain ⟨other, foundOther, same⟩ := similar.forward found
      exact ⟨other, foundOther, same.isLive.trans live,
        same.fullPath.trans fullPath⟩
    · rintro ⟨other, foundOther, live, fullPath⟩
      obtain ⟨entry, found, same⟩ := similar.backward foundOther
      exact ⟨entry, found, same.isLive.symm.trans live,
        same.fullPath.symm.trans fullPath⟩

/-! ## Inserting a child -/

/-- The entry of the directory that got the new child. -/
def grownParent (parentEntry : InodeEntry) (inode : Ino) (name : Name)
    (kind : InodeKind) : InodeEntry :=
  { parentEntry.addChild inode name with
    nlink := if kind = .directory then parentEntry.nlink + 1
      else parentEntry.nlink }

/-- What inserting at a free path does to lookups and mappings. -/
theorem insert_unmapped {table : InodeTable} {parent : Ino} {fullPath : Path}
    {parentEntry : InodeEntry} (found : table.get parent = some parentEntry)
    (given : parent < table.nextInode)
    (unmapped : table.pathToInode fullPath = none) (name : Name)
    (kind : InodeKind) (size : Nat) (mtime : Time) (xetHash : Option Hash)
    (mode uid gid : Nat) (now : Time) :
    ∃ after, table.insert parent name fullPath kind size mtime xetHash mode uid
        gid now = (table.nextInode, after) ∧
      after.nextInode = table.nextInode + 1 ∧
      after.pathToInode = Function.update table.pathToInode fullPath
        (some table.nextInode) ∧
      after.get table.nextInode = some (.new table.nextInode parent name
        fullPath kind size mtime xetHash mode uid gid now
        table.touchCounter) ∧
      after.get parent =
        some (grownParent parentEntry table.nextInode name kind) ∧
      ∀ other, other ≠ table.nextInode → other ≠ parent →
        after.get other = table.get other := by
  have distinct : parent ≠ table.nextInode := Nat.ne_of_lt given
  unfold insert
  rw [unmapped]
  refine ⟨_, rfl, ?_, ?_, ?_, ?_, ?_⟩
  · rw [nextInode_modify]
  · rw [pathToInode_modify]
  · rw [get_modify_of_ne _ distinct.symm]
    exact AList.lookup_insert _
  · rw [get_modify, if_pos rfl]
    have kept : (AList.insert table.nextInode (InodeEntry.new table.nextInode
        parent name fullPath kind size mtime xetHash mode uid gid now
        table.touchCounter) table.inodes).lookup parent = some parentEntry :=
      (AList.lookup_insert_ne distinct).trans found
    exact congrArg (Option.map _) kept
  · intro other notNew notParent
    rw [get_modify_of_ne _ notParent]
    exact AList.lookup_insert_ne notNew

/-- What is in the table after an insertion is the new inode, its directory or
what was there. -/
theorem get_insert_cases {before after : InodeTable} {new parent : Ino}
    {leaf grown : InodeEntry} (gotNew : after.get new = some leaf)
    (gotParent : after.get parent = some grown)
    (others : ∀ other, other ≠ new → other ≠ parent →
      after.get other = before.get other)
    {ino : Ino} {entry : InodeEntry} (got : after.get ino = some entry) :
    (ino = new ∧ entry = leaf) ∨ (ino = parent ∧ entry = grown) ∨
      (ino ≠ parent ∧ before.get ino = some entry) := by
  by_cases isNew : ino = new
  · rw [isNew, gotNew] at got
    exact Or.inl ⟨isNew, (Option.some.inj got).symm⟩
  by_cases isParent : ino = parent
  · rw [isParent, gotParent] at got
    exact Or.inr (Or.inl ⟨isParent, (Option.some.inj got).symm⟩)
  · exact Or.inr (Or.inr
      ⟨isParent, (others ino isNew isParent).symm.trans got⟩)

/-- The path of a free name is free. -/
theorem insert_of_free {table : InodeTable} (wf : table.WellFormed)
    {parent : Ino} {name : Name} {parentEntry : InodeEntry}
    (found : table.get parent = some parentEntry)
    (directory : parentEntry.kind = .directory) (valid : ValidName name)
    (free : parentEntry.childIndex name = none) (kind : InodeKind) (size : Nat)
    (mtime : Time) (xetHash : Option Hash) (mode uid gid : Nat) (now : Time) :
    ∃ after, table.insert parent name (childPath parentEntry.fullPath name)
        kind size mtime xetHash mode uid gid now = (table.nextInode, after) ∧
      after.nextInode = table.nextInode + 1 ∧
      after.pathToInode = Function.update table.pathToInode
        (childPath parentEntry.fullPath name) (some table.nextInode) ∧
      after.get table.nextInode = some (.new table.nextInode parent name
        (childPath parentEntry.fullPath name) kind size mtime xetHash mode uid
        gid now table.touchCounter) ∧
      after.get parent =
        some (grownParent parentEntry table.nextInode name kind) ∧
      ∀ other, other ≠ table.nextInode → other ≠ parent →
        after.get other = table.get other :=
  insert_unmapped found (wf.key found).2
    (wf.path_of_free found directory valid free) name kind size mtime xetHash
    mode uid gid now

theorem WellFormed.insert {table : InodeTable} (wf : table.WellFormed)
    {parent : Ino} {name : Name} {parentEntry : InodeEntry}
    (found : table.get parent = some parentEntry)
    (directory : parentEntry.kind = .directory) (valid : ValidName name)
    (free : parentEntry.childIndex name = none) (kind : InodeKind) (size : Nat)
    (mtime : Time) (xetHash : Option Hash) (mode uid gid : Nat) (now : Time) :
    (table.insert parent name (childPath parentEntry.fullPath name) kind size
      mtime xetHash mode uid gid now).2.WellFormed := by
  obtain ⟨after, inserted, nextInode, mapping, foundNew, foundParent, others⟩ :=
    insert_of_free wf found directory valid free kind size mtime xetHash mode
      uid gid now
  rw [inserted]
  have indexed := wf.indexed found
  have oldIno : ∀ {ino entry}, table.get ino = some entry →
      ino ≠ table.nextInode :=
    fun got => Nat.ne_of_lt (wf.key got).2
  have split := @get_insert_cases _ _ _ _ _ _ foundNew foundParent others
  have keep : ∀ {ino} {entry : InodeEntry}, table.get ino = some entry →
      ∃ other, after.get ino = some other ∧ entry.SamePlace other ∧
        ∀ child ∈ entry.children, child ∈ other.children := by
    intro ino entry got
    by_cases isParent : ino = parent
    · subst isParent
      obtain rfl := Option.some.inj (found.symm.trans got)
      refine ⟨_, foundParent, ⟨rfl, rfl, rfl, rfl, rfl, ?_⟩, ?_⟩
      · exact fun file => absurd directory file
      · intro child listed
        exact InodeEntry.mem_addChild.mpr (Or.inl listed)
    · exact ⟨entry, (others ino (oldIno got) isParent).trans got, .refl entry,
        fun child listed => listed⟩
  have isChild : ∀ {ino entry child childEntry},
      table.IsChild ino entry child childEntry →
      ∀ {other : InodeEntry}, other.fullPath = entry.fullPath →
      ∃ after', after.IsChild ino other child after' := by
    intro ino entry child childEntry isChild other samePath
    obtain ⟨kept, got, same, _⟩ := keep isChild.found
    refine ⟨kept, got, same.parent.trans isChild.parent,
      same.name.trans isChild.name, ?_, same.isLive.trans isChild.live⟩
    rw [same.fullPath, samePath]
    exact isChild.fullPath
  have newChild : after.IsChild parent
      (grownParent parentEntry table.nextInode name kind)
      ⟨table.nextInode, name⟩ (.new table.nextInode parent name
        (childPath parentEntry.fullPath name) kind size mtime xetHash mode uid
        gid now table.touchCounter) :=
    ⟨foundNew, rfl, rfl, rfl, by cases kind <;> rfl⟩
  constructor
  · obtain ⟨entry, got, rootDirectory, rootPath⟩ := wf.root
    obtain ⟨other, gotOther, same, _⟩ := keep got
    exact ⟨other, gotOther, same.kind.trans rootDirectory,
      same.fullPath.trans rootPath⟩
  · intro ino entry got
    rw [nextInode]
    rcases split got with ⟨rfl, rfl⟩ | ⟨rfl, rfl⟩ | ⟨_, old⟩
    · exact ⟨rfl, Nat.lt_succ_self _⟩
    · exact ⟨(wf.key found).1, Nat.lt_succ_of_lt (wf.key found).2⟩
    · exact ⟨(wf.key old).1, Nat.lt_succ_of_lt (wf.key old).2⟩
  · intro ino entry got
    rcases split got with ⟨rfl, rfl⟩ | ⟨rfl, rfl⟩ | ⟨_, old⟩
    · exact InodeEntry.indexed_of_no_children rfl fun _ => rfl
    · have added := indexed.addChild free fun child listed => by
        obtain ⟨childEntry, isChild⟩ := wf.child found listed
        exact oldIno isChild.found
      exact ⟨added.nodup, added.index⟩
    · exact wf.indexed old
  · intro ino entry got file
    rcases split got with ⟨rfl, rfl⟩ | ⟨rfl, rfl⟩ | ⟨_, old⟩
    · cases kind with
      | directory => exact absurd rfl file
      | file => exact Nat.le_refl 1
      | symlink => exact Nat.le_refl 1
    · exact absurd directory file
    · exact wf.links old file
  · intro ino entry child got listed
    rcases split got with ⟨rfl, rfl⟩ | ⟨rfl, rfl⟩ | ⟨_, old⟩
    · cases listed
    · rcases InodeEntry.mem_addChild.mp listed with earlier | rfl
      · obtain ⟨_, notRoot, validChild⟩ := wf.directory found earlier
        exact ⟨directory, notRoot, validChild⟩
      · refine ⟨directory, ?_, valid⟩
        obtain ⟨rootEntry, gotRoot, _⟩ := wf.root
        exact (oldIno gotRoot).symm
    · exact wf.directory old listed
  · intro ino entry child got listed
    rcases split got with ⟨rfl, rfl⟩ | ⟨rfl, rfl⟩ | ⟨_, old⟩
    · cases listed
    · rcases InodeEntry.mem_addChild.mp listed with earlier | rfl
      · obtain ⟨childEntry, wasChild⟩ := wf.child found earlier
        exact isChild wasChild rfl
      · exact ⟨_, newChild⟩
    · obtain ⟨childEntry, wasChild⟩ := wf.child old listed
      exact isChild wasChild rfl
  · intro ino entry got notRoot live
    rcases split got with ⟨rfl, rfl⟩ | ⟨rfl, rfl⟩ | ⟨_, old⟩
    · exact ⟨_, foundParent, InodeEntry.mem_addChild.mpr (Or.inr rfl)⟩
    · obtain ⟨above, gotAbove, listed⟩ := wf.attached found notRoot
        (InodeEntry.isLive_of_directory directory)
      obtain ⟨kept, gotKept, _, children⟩ := keep gotAbove
      exact ⟨kept, gotKept, children _ listed⟩
    · obtain ⟨above, gotAbove, listed⟩ := wf.attached old notRoot live
      obtain ⟨kept, gotKept, _, children⟩ := keep gotAbove
      exact ⟨kept, gotKept, children _ listed⟩
  · intro path ino
    have unmapped := wf.path_of_free found directory valid free
    rw [mapping]
    constructor
    · intro mapped
      by_cases here : path = childPath parentEntry.fullPath name
      · subst here
        rw [Function.update_self] at mapped
        obtain rfl := Option.some.inj mapped
        exact ⟨_, foundNew, newChild.live, rfl⟩
      · rw [Function.update_of_ne here] at mapped
        obtain ⟨entry, got, live, fullPath⟩ := wf.path.mp mapped
        obtain ⟨other, gotOther, same, _⟩ := keep got
        exact ⟨other, gotOther, same.isLive.trans live,
          same.fullPath.trans fullPath⟩
    · rintro ⟨entry, got, live, rfl⟩
      rcases split got with ⟨rfl, rfl⟩ | ⟨rfl, rfl⟩ | ⟨_, old⟩
      · exact Function.update_self _ _ _
      · have mapped := wf.path.mpr ⟨parentEntry, found,
          InodeEntry.isLive_of_directory directory, rfl⟩
        have elsewhere : parentEntry.fullPath ≠
            childPath parentEntry.fullPath name := by
          intro same
          rw [← same, mapped] at unmapped
          cases unmapped
        exact (Function.update_of_ne elsewhere _ _).trans mapped
      · have mapped := wf.path.mpr ⟨entry, old, live, rfl⟩
        have elsewhere : entry.fullPath ≠
            childPath parentEntry.fullPath name := by
          intro same
          rw [← same, mapped] at unmapped
          cases unmapped
        exact (Function.update_of_ne elsewhere _ _).trans mapped

/-! ## Taking inodes out of the tree -/

/-- `after` is `before` without the inodes `gone`, which have left the table
or have become files without links; the others are related to what they
were. -/
structure PrunedBy (related : InodeEntry → InodeEntry → Prop)
    (before after : InodeTable) (gone : Ino → Prop) : Prop where
  root : ¬ gone rootInode
  closed : ∀ {ino : Ino} {entry : InodeEntry} {child : DirChild},
    gone ino → before.get ino = some entry → child ∈ entry.children →
    gone child.ino
  kept : ∀ {ino : Ino} {entry : InodeEntry}, ¬ gone ino →
    before.get ino = some entry →
    ∃ other, after.get ino = some other ∧ entry.SamePlace other ∧
      related entry other ∧ other.Indexed ∧
      ∀ child, child ∈ other.children ↔
        child ∈ entry.children ∧ ¬ gone child.ino
  source : ∀ {ino : Ino} {other : InodeEntry}, after.get ino = some other →
    ∃ entry, before.get ino = some entry ∧ (gone ino →
      other.isLive = false ∧ other.inode = ino ∧ other.Indexed ∧
        other.children = [])
  path : ∀ {path : Path} {ino : Ino}, after.pathToInode path = some ino ↔
    before.pathToInode path = some ino ∧ ¬ gone ino
  nextInode : after.nextInode = before.nextInode

/-- The others keep their content. -/
abbrev Pruned (before after : InodeTable) (gone : Ino → Prop) : Prop :=
  PrunedBy InodeEntry.SameContent before after gone

theorem WellFormed.pruned {before after : InodeTable} {gone : Ino → Prop}
    {related : InodeEntry → InodeEntry → Prop} (wf : before.WellFormed)
    (pruned : PrunedBy related before after gone) : after.WellFormed := by
  have dead : ∀ {entry : InodeEntry}, entry.isLive = false →
      entry.kind ≠ .directory ∧ entry.nlink = 0 := by
    intro entry notLive
    simpa [InodeEntry.isLive] using notLive
  -- An inode that is still there comes from one with the same place.
  have split : ∀ {ino : Ino} {other : InodeEntry},
      after.get ino = some other →
      (gone ino ∧ other.isLive = false ∧ other.inode = ino ∧ other.Indexed ∧
        other.children = [] ∧ ino < before.nextInode) ∨
      (¬ gone ino ∧ ∃ entry, before.get ino = some entry ∧
        entry.SamePlace other ∧ other.Indexed ∧
        ∀ child, child ∈ other.children ↔
          child ∈ entry.children ∧ ¬ gone child.ino) := by
    intro ino other got
    obtain ⟨entry, found, whenGone⟩ := pruned.source got
    by_cases isGone : gone ino
    · obtain ⟨notLive, inode, indexed, children⟩ := whenGone isGone
      exact Or.inl ⟨isGone, notLive, inode, indexed, children,
        (wf.key found).2⟩
    · obtain ⟨kept, gotKept, same, _, indexed, children⟩ :=
        pruned.kept isGone found
      obtain rfl := Option.some.inj (gotKept.symm.trans got)
      exact Or.inr ⟨isGone, entry, found, same, indexed, children⟩
  constructor
  · obtain ⟨entry, found, directory, fullPath⟩ := wf.root
    obtain ⟨other, got, same, _⟩ := pruned.kept pruned.root found
    exact ⟨other, got, same.kind.trans directory,
      same.fullPath.trans fullPath⟩
  · intro ino other got
    rw [pruned.nextInode]
    rcases split got with ⟨_, _, inode, _, _, below⟩ | ⟨_, entry, found, same, _⟩
    · exact ⟨inode, below⟩
    · exact ⟨same.inode.trans (wf.key found).1, (wf.key found).2⟩
  · intro ino other got
    rcases split got with ⟨_, _, _, indexed, _⟩ | ⟨_, _, _, _, indexed, _⟩
    · exact indexed
    · exact indexed
  · intro ino other got file
    rcases split got with ⟨_, notLive, _⟩ | ⟨_, entry, found, same, _⟩
    · exact (dead notLive).2 ▸ Nat.zero_le 1
    · have fileEntry : entry.kind ≠ .directory := same.kind ▸ file
      rw [same.links fileEntry]
      exact wf.links found fileEntry
  · intro ino other child got listed
    rcases split got with ⟨_, _, _, _, none, _⟩ | ⟨_, entry, found, same, _, children⟩
    · rw [none] at listed
      cases listed
    · rw [same.kind]
      exact wf.directory found ((children child).mp listed).1
  · intro ino other child got listed
    rcases split got with ⟨_, _, _, _, none, _⟩ | ⟨_, entry, found, same, _, children⟩
    · rw [none] at listed
      cases listed
    · obtain ⟨inEntry, notGone⟩ := (children child).mp listed
      obtain ⟨childEntry, isChild⟩ := wf.child found inEntry
      obtain ⟨kept, gotKept, sameChild, _⟩ := pruned.kept notGone isChild.found
      refine ⟨kept, gotKept, sameChild.parent.trans isChild.parent,
        sameChild.name.trans isChild.name, ?_,
        sameChild.isLive.trans isChild.live⟩
      rw [sameChild.fullPath, same.fullPath]
      exact isChild.fullPath
  · intro ino other got notRoot live
    rcases split got with ⟨_, notLive, _⟩ | ⟨notGone, entry, found, same, _⟩
    · rw [notLive] at live
      cases live
    · obtain ⟨parentEntry, foundParent, listed⟩ :=
        wf.attached found notRoot (same.isLive.symm.trans live)
      have parentKept : ¬ gone entry.parent :=
        fun parentGone => notGone (pruned.closed parentGone foundParent listed)
      obtain ⟨kept, gotKept, _, _, _, children⟩ :=
        pruned.kept parentKept foundParent
      refine ⟨kept, same.parent ▸ gotKept, ?_⟩
      rw [same.name]
      exact (children _).mpr ⟨listed, notGone⟩
  · intro path ino
    rw [pruned.path, wf.path]
    constructor
    · rintro ⟨⟨entry, found, live, fullPath⟩, notGone⟩
      obtain ⟨kept, gotKept, same, _⟩ := pruned.kept notGone found
      exact ⟨kept, gotKept, same.isLive.trans live,
        same.fullPath.trans fullPath⟩
    · rintro ⟨other, got, live, fullPath⟩
      rcases split got with ⟨_, notLive, _⟩ | ⟨notGone, entry, found, same, _⟩
      · rw [notLive] at live
        cases live
      · exact ⟨⟨entry, found, same.isLive.symm.trans live,
          same.fullPath.symm.trans fullPath⟩, notGone⟩

end InodeTable

end HfMount.Inode
