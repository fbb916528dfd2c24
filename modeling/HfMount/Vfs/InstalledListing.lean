import HfMount.Hub.RemoteView
import HfMount.Inode.Worklists
import HfMount.Vfs.Listing
import HfMount.Vfs.TableRuns

/-!
# The table that holds a listing

A listing of a directory that is still at its path keeps the table in order.
What was there stays in its place with its content, directories only get more
children, and the names that were seen are those of the listing.
-/

namespace HfMount.Inode.InodeTable

open SlashPath Poll

/-- A live inode is found in its parent, under its name. -/
theorem WellFormed.lookupChild_self {table : InodeTable}
    (wf : table.WellFormed) {ino : Ino} {entry : InodeEntry}
    (found : table.get ino = some entry) (notRoot : ino ≠ rootInode)
    (live : entry.isLive = true) :
    table.lookupChild entry.parent entry.name = some entry := by
  obtain ⟨parentEntry, foundParent, _, _, listed, _⟩ :=
    wf.parent found notRoot live
  obtain ⟨again, isChild⟩ := wf.child foundParent listed
  obtain rfl := Option.some.inj (found.symm.trans isChild.found)
  have key : entry.inode = ino := (wf.key found).1
  exact wf.lookupChild.mpr
    ⟨parentEntry, foundParent, key ▸ listed, key ▸ isChild⟩

/-- A name that no lookup finds has no slot. -/
theorem WellFormed.slot_none {table : InodeTable} (wf : table.WellFormed)
    {parent : Ino} {name : Name}
    (missing : table.lookupChild parent name = none) :
    slot table parent name = none := by
  unfold slot
  cases found : table.get parent with
  | none => rfl
  | some parentEntry => exact (wf.lookupChild_none found).mp missing

/-- The paths of the tree to what stays are still there. -/
theorem Pruned.below_of_kept {before after : InodeTable} {gone : Ino → Prop}
    (pruned : before.Pruned after gone) {upper lower : Ino}
    (below : before.Below upper lower) (stays : ¬ gone lower) :
    after.Below upper lower := by
  induction below with
  | refl => exact .refl
  | @tail middle lower _ one ih =>
      obtain ⟨entry, name, found, listed⟩ := one
      have middleStays : ¬ gone middle :=
        fun isGone => stays (pruned.closed isGone found listed)
      obtain ⟨kept, got, _, _, _, children⟩ := pruned.kept middleStays found
      exact (ih middleStays).tail
        ⟨kept, name, got, (children _).mpr ⟨listed, stays⟩⟩

end HfMount.Inode.InodeTable

namespace HfMount.Vfs

open SlashPath Inode Poll

/-- The first component of a relative path: the child of the directory. -/
def topName (rel : Path) : Name := rel.takeWhile (· ≠ '/')

theorem topName_of_no_slash {rel : Path} (direct : '/' ∉ rel) :
    topName rel = rel := by
  apply List.takeWhile_eq_self_iff.mpr
  intro char member
  have different : char ≠ '/' := by
    rintro rfl
    exact direct member
  simpa using different

theorem no_slash_topName (rel : Path) : '/' ∉ topName rel := by
  intro member
  simpa using List.mem_takeWhile_imp member

/-- The child of the directory that an entry of the listing brings, if it
brings one. -/
def Listing.childName (settings : ListingSettings) (listing : Listing)
    (entry : TreeEntry) : Option Name :=
  (listing.relPath entry).bind fun rel =>
    if rel.contains '/' then some (topName rel)
    else (listedSize settings listing entry).map fun _ => rel

/-- The names of the children that the listing has. -/
def Listing.names (settings : ListingSettings) (listing : Listing) :
    List Name :=
  listing.entries.filterMap (listing.childName settings)

/-- The listing is that of the directory where it is now, and no path of it
has an empty first component. -/
def Listing.Fits (listing : Listing) (table : InodeTable) (parent : Ino) :
    Prop :=
  (∀ entry ∈ table.get parent, entry.fullPath = listing.dir) ∧
    ∀ entry ∈ listing.entries, ∀ rel ∈ listing.relPath entry, topName rel ≠ []

instance (listing : Listing) (table : InodeTable) (parent : Ino) :
    Decidable (listing.Fits table parent) :=
  inferInstanceAs (Decidable (_ ∧ _))

/-- The path of an entry is its relative path below the directory. -/
theorem Listing.path_of_relPath {listing : Listing} {entry : TreeEntry}
    {rel : Path} (shown : listing.relPath entry = some rel) :
    entry.path = childPath listing.dir rel := by
  unfold Listing.relPath at shown
  split at shown <;> rename_i root
  · rw [List.isEmpty_iff.mp root, childPath_nil]
    exact Option.some.inj shown
  · obtain ⟨_, path⟩ := Hub.strictDescendantRel_eq_some_iff.mp shown
    rw [path, childPath_of_ne_nil (by simpa using root)]

/-! ## Tables that only grow -/

/-- Every inode is still in its place with its content, and has at least the
children that it had. -/
def Grows (before after : InodeTable) : Prop :=
  ∀ ino entry, before.get ino = some entry → ∃ other,
    after.get ino = some other ∧ entry.SamePlace other ∧
      SameFile entry other ∧ ∀ child ∈ entry.children, child ∈ other.children

theorem Grows.refl (table : InodeTable) : Grows table table :=
  fun _ entry found => ⟨entry, found, .refl entry, .refl entry,
    fun _ listed => listed⟩

theorem Grows.trans {first second third : InodeTable}
    (left : Grows first second) (right : Grows second third) :
    Grows first third := by
  intro ino entry found
  obtain ⟨middle, foundMiddle, place, file, children⟩ := left ino entry found
  obtain ⟨last, foundLast, lastPlace, lastFile, lastChildren⟩ :=
    right ino middle foundMiddle
  exact ⟨last, foundLast, place.trans lastPlace, file.trans lastFile,
    fun child listed => lastChildren child (children child listed)⟩

theorem grows_modify (table : InodeTable) (ino : Ino)
    {change : InodeEntry → InodeEntry}
    (node : ∀ entry : InodeEntry, entry.SameNode (change entry))
    (file : ∀ entry, SameFile entry (change entry)) :
    Grows table (table.modify ino change) := by
  intro other entry found
  rw [InodeTable.get_modify]
  split <;> rename_i here
  · rw [← here, found]
    refine ⟨change entry, rfl, (node entry).toSamePlace, file entry, ?_⟩
    intro child listed
    rw [(node entry).children]
    exact listed
  · exact ⟨entry, found, .refl entry, .refl entry, fun _ listed => listed⟩

theorem grows_insert {table : InodeTable} (wf : table.WellFormed)
    {parent : Ino} {name : Name} {fullPath : Path} {parentEntry : InodeEntry}
    (found : table.get parent = some parentEntry)
    (directory : parentEntry.kind = .directory) (valid : ValidName name)
    (here : fullPath = childPath parentEntry.fullPath name) (kind : InodeKind)
    (size : Nat) (mtime : Time) (xetHash : Option Hash) (mode uid gid : Nat)
    (now : Time) :
    Grows table (table.insert parent name fullPath kind size mtime xetHash mode
      uid gid now).2 := by
  subst here
  cases mapped : table.pathToInode (childPath parentEntry.fullPath name) with
  | some existing =>
      simp only [InodeTable.insert, mapped]
      exact grows_modify table existing
        (fun _ => .of_fields rfl)
        fun _ => ⟨⟨rfl, rfl, rfl, rfl⟩, rfl⟩
  | none =>
      obtain ⟨after, inserted, _, _, _, foundParent, others⟩ :=
        InodeTable.insert_of_free wf found directory valid
          (wf.free_of_path found mapped) kind size mtime xetHash mode uid gid
          now
      rw [inserted]
      intro ino entry got
      by_cases isParent : ino = parent
      · subst isParent
        obtain rfl := Option.some.inj (found.symm.trans got)
        refine ⟨_, foundParent, ⟨rfl, rfl, rfl, rfl, rfl, ?_⟩,
          ⟨⟨rfl, rfl, rfl, rfl⟩, rfl⟩, ?_⟩
        · exact fun file => absurd directory file
        · intro child listed
          exact InodeEntry.mem_addChild.mpr (Or.inl listed)
      · have old : ino ≠ table.nextInode := Nat.ne_of_lt (wf.key got).2
        exact ⟨entry, (others ino old isParent).trans got, .refl entry,
          .refl entry, fun _ listed => listed⟩

/-! ## One entry after the other -/

/-- The directory is at the path that was listed, in a table in order. -/
structure Ready (listing : Listing) (parent : Ino) (table : InodeTable) :
    Prop where
  order : table.InOrder
  dir : ∃ entry, table.get parent = some entry ∧ entry.kind = .directory ∧
    entry.fullPath = listing.dir

theorem Ready.grows {listing : Listing} {parent : Ino}
    {before after : InodeTable} (ready : Ready listing parent before)
    (order : after.InOrder) (grows : Grows before after) :
    Ready listing parent after := by
  obtain ⟨entry, found, directory, path⟩ := ready.dir
  obtain ⟨other, got, place, _⟩ := grows parent entry found
  exact ⟨order, other, got, place.kind.trans directory,
    place.fullPath.trans path⟩

theorem Ready.insert {listing : Listing} {parent : Ino} {table : InodeTable}
    (ready : Ready listing parent table) {name : Name} (valid : ValidName name)
    (kind : InodeKind) (size : Nat) (mtime : Time) (xetHash : Option Hash)
    (mode uid gid : Nat) (now : Time) :
    Ready listing parent (table.insert parent name
        (childPath listing.dir name) kind size mtime xetHash mode uid gid
        now).2 ∧
      Grows table (table.insert parent name (childPath listing.dir name) kind
        size mtime xetHash mode uid gid now).2 := by
  obtain ⟨entry, found, directory, path⟩ := ready.dir
  have here : childPath listing.dir name = childPath entry.fullPath name := by
    rw [path]
  have grows := grows_insert ready.order.wf found directory valid here kind
    size mtime xetHash mode uid gid now
  have order := ready.order.insert found directory valid (fun _ => here) kind
    size mtime xetHash mode uid gid now
  exact ⟨ready.grows order grows, grows⟩

theorem Ready.modify {listing : Listing} {parent : Ino} {table : InodeTable}
    (ready : Ready listing parent table) (ino : Ino)
    {change : InodeEntry → InodeEntry}
    (same : ∀ entry : InodeEntry, entry.SameLinks (change entry))
    (file : ∀ entry, SameFile entry (change entry)) :
    Ready listing parent (table.modify ino change) ∧
      Grows table (table.modify ino change) := by
  have grows := grows_modify table ino (fun entry => (same entry).toSameNode)
    file
  exact ⟨ready.grows (ready.order.update ino same) grows, grows⟩

theorem Ready.tagListed {listing : Listing} {parent : Ino} {table : InodeTable}
    (ready : Ready listing parent table) (ino : Ino) (cipherSize : Option Nat)
    (oid : Option Hash) :
    Ready listing parent (tagListed table ino cipherSize oid) ∧
      Grows table (tagListed table ino cipherSize oid) := by
  have sized : Ready listing parent (if cipherSize.isSome then
        table.modify ino fun entry => { entry with cipherSize } else table) ∧
      Grows table (if cipherSize.isSome then
        table.modify ino fun entry => { entry with cipherSize } else table) := by
    split
    · exact ready.modify ino (fun _ => .of_fields rfl) fun _ => ⟨⟨rfl, rfl, rfl, rfl⟩, rfl⟩
    · exact ⟨ready, .refl table⟩
  unfold Vfs.tagListed
  dsimp only
  split
  · have tagged := @Ready.modify _ _ _ sized.1 ino
      (fun entry => { entry with etag := oid })
      (fun _ => .of_fields rfl)
      fun _ => ⟨⟨rfl, rfl, rfl, rfl⟩, rfl⟩
    exact ⟨tagged.1, sized.2.trans tagged.2⟩
  · exact sized

section

variable {settings : ListingSettings} {listing : Listing} {parent : Ino}
  {now : Time}

theorem ready_installEntry {state : Installing}
    (ready : Ready listing parent state.table) {entry : TreeEntry}
    (named : ∀ rel ∈ listing.relPath entry, topName rel ≠ []) :
    Ready listing parent
        (installEntry settings listing parent now state entry).table ∧
      Grows state.table
        (installEntry settings listing parent now state entry).table := by
  unfold installEntry
  split <;> rename_i shown
  · exact ⟨ready, .refl _⟩
  rename_i rel
  have valid : ValidName (topName rel) :=
    ⟨named rel shown, no_slash_topName rel⟩
  split <;> rename_i nested
  · unfold installNested
    dsimp only
    split
    · exact ⟨ready, .refl _⟩
    · exact ready.insert valid _ _ _ _ _ _ _ _
  · have direct : '/' ∉ rel := by simpa using nested
    rw [topName_of_no_slash direct] at valid
    unfold installDirect
    split
    · exact ⟨ready, .refl _⟩
    rw [Listing.path_of_relPath shown]
    obtain ⟨inserted, grows⟩ := ready.insert valid (listedKind entry) _
      (entry.mtime.getD settings.defaultMtime) entry.xetHash
      (if listedKind entry = .directory then settings.dirMode
        else settings.fileMode) settings.uid settings.gid now
    obtain ⟨tagged, growsTagged⟩ := inserted.tagListed _ _ entry.oid
    exact ⟨tagged, grows.trans growsTagged⟩

theorem ready_foldl_installEntry {entries : List TreeEntry}
    {state : Installing} (ready : Ready listing parent state.table)
    (named : ∀ entry ∈ entries, ∀ rel ∈ listing.relPath entry,
      topName rel ≠ []) :
    Ready listing parent
        (entries.foldl (installEntry settings listing parent now) state).table ∧
      Grows state.table
        (entries.foldl (installEntry settings listing parent now)
          state).table := by
  induction entries generalizing state with
  | nil => exact ⟨ready, .refl _⟩
  | cons entry entries ih =>
      obtain ⟨first, grows⟩ := ready_installEntry ready
        (named entry List.mem_cons_self)
      obtain ⟨rest, growsRest⟩ := ih first fun later member =>
        named later (List.mem_cons_of_mem _ member)
      exact ⟨rest, grows.trans growsRest⟩

/-- The entries of a listing leave the table in order and let it grow. -/
theorem ready_installEntries {table : InodeTable} (order : table.InOrder)
    (directory : table.isDirectory parent = true)
    (fits : listing.Fits table parent) :
    Ready listing parent
        (installEntries settings listing parent now table).table ∧
      Grows table (installEntries settings listing parent now table).table := by
  obtain ⟨entry, found, isDirectory⟩ := InodeTable.isDirectory_iff.mp directory
  exact ready_foldl_installEntry
    ⟨order, entry, found, isDirectory, fits.1 entry found⟩ fits.2

/-! ## The names that were seen -/

theorem mem_seen_installEntry {state : Installing} {entry : TreeEntry}
    {name : Name} :
    name ∈ (installEntry settings listing parent now state entry).seenNames ++
        (installEntry settings listing parent now state entry).seenDirs ↔
      name ∈ state.seenNames ++ state.seenDirs ∨
        listing.childName settings entry = some name := by
  unfold installEntry Listing.childName
  cases shown : listing.relPath entry with
  | none => simp
  | some rel =>
      by_cases nested : rel.contains '/' = true
      · simp only [nested, if_true, Option.bind_some, installNested]
        by_cases seen : state.seenDirs.contains
            (rel.takeWhile (· ≠ '/')) = true
        · simp only [seen, if_true, Option.some.injEq]
          constructor
          · exact Or.inl
          · rintro (earlier | rfl)
            · exact earlier
            · exact List.mem_append_right _ (List.contains_iff_mem.mp seen)
        · simp only [seen, topName, Option.some.injEq, Bool.false_eq_true,
            if_false, List.mem_append, List.mem_singleton]
          rw [or_assoc, eq_comm]
      · simp only [nested, Bool.false_eq_true, if_false, Option.bind_some,
          installDirect]
        cases listedSize settings listing entry with
        | none => simp
        | some sizes =>
            simp only [Option.map_some, Option.some.injEq, List.mem_append,
              List.mem_singleton]
            rw [or_right_comm, eq_comm]

theorem mem_seen_foldl {entries : List TreeEntry} {state : Installing}
    {name : Name} :
    name ∈ (entries.foldl (installEntry settings listing parent now)
          state).seenNames ++
        (entries.foldl (installEntry settings listing parent now)
          state).seenDirs ↔
      name ∈ state.seenNames ++ state.seenDirs ∨
        name ∈ entries.filterMap (listing.childName settings) := by
  induction entries generalizing state with
  | nil => simp
  | cons entry entries ih =>
      rw [List.foldl_cons, ih, mem_seen_installEntry, or_assoc]
      simp only [List.mem_filterMap, List.mem_cons, exists_eq_or_imp]

/-- What was seen is what the listing has. -/
theorem mem_seen_installEntries {table : InodeTable} {name : Name} :
    name ∈ (installEntries settings listing parent now table).seenNames ++
        (installEntries settings listing parent now table).seenDirs ↔
      name ∈ listing.names settings := by
  have seen := @mem_seen_foldl settings listing parent now listing.entries
    ⟨table, [], []⟩ name
  simpa [installEntries, Listing.names] using seen

end

/-! ## Sweeping what the listing lacks -/

/-- Two children of a directory have nothing in common below them. -/
theorem sibling_eq {table : InodeTable} (wf : table.WellFormed)
    {parent : Ino} {parentEntry : InodeEntry} {left right : DirChild}
    (found : table.get parent = some parentEntry)
    (listedLeft : left ∈ parentEntry.children)
    (listedRight : right ∈ parentEntry.children) {lower : Ino}
    (belowLeft : table.Below left.ino lower)
    (belowRight : table.Below right.ino lower) : left.ino = right.ino := by
  apply wf.treelike.forest.child_eq
  · exact InodeTable.mem_pushed.mpr ⟨parentEntry, left.name, found, listedLeft⟩
  · exact InodeTable.mem_pushed.mpr
      ⟨parentEntry, right.name, found, listedRight⟩
  · exact InodeTable.leads_iff.mpr belowLeft
  · exact InodeTable.leads_iff.mpr belowRight

/-- `lower` is `upper` or below it, as a walk from `upper` finds out. -/
def AtOrAbove (table : InodeTable) (upper lower : Ino) : Prop :=
  lower ∈ table.descendants table.depthBound upper

instance (table : InodeTable) (upper lower : Ino) :
    Decidable (AtOrAbove table upper lower) :=
  inferInstanceAs (Decidable (_ ∈ _))

theorem atOrAbove_of_below {table : InodeTable} (wf : table.WellFormed)
    {upper lower : Ino} (below : table.Below upper lower) :
    AtOrAbove table upper lower :=
  wf.treelike.mem_descendants_iff.mpr below

theorem busy_of_sameFile {left right : InodeEntry} (same : SameFile left right) :
    right.isBusy = left.isBusy := by
  unfold InodeEntry.isBusy InodeEntry.isDirty InodeEntry.hasOpenHandles
  rw [same.dirtyGeneration, same.openHandles]

/-- What a change of the table does to the inodes that were given out: the
doomed are gone, and the others are related to what they were. -/
structure Swept (same : InodeEntry → InodeEntry → Prop)
    (before after : InodeTable) (doomed : Ino → Prop) : Prop where
  gone : ∀ {ino}, doomed ino → after.get ino = none
  kept : ∀ {ino}, ¬ doomed ino → Kept same before after ino
  fresh : ∀ {ino}, before.get ino = none → ino < before.nextInode →
    after.get ino = none
  nextInode : before.nextInode ≤ after.nextInode

section

variable {same : InodeEntry → InodeEntry → Prop}

theorem Swept.refl (reflexive : ∀ entry, same entry entry)
    (table : InodeTable) : Swept same table table fun _ => False := by
  refine ⟨False.elim, ?_, fun missing _ => missing, Nat.le_refl _⟩
  exact fun _ entry found => ⟨entry, found, reflexive entry⟩

theorem Swept.trans
    (comp : ∀ {first second third : InodeEntry}, same first second →
      same second third → same first third)
    {first second third : InodeTable} {doomed later : Ino → Prop}
    (left : Swept same first second doomed)
    (right : Swept same second third later)
    (old : ∀ {ino}, doomed ino → ino < first.nextInode) :
    Swept same first third fun ino => doomed ino ∨ later ino := by
  constructor
  · rintro ino (isDoomed | isLater)
    · exact right.fresh (left.gone isDoomed)
        (Nat.lt_of_lt_of_le (old isDoomed) left.nextInode)
    · exact right.gone isLater
  · intro ino stays
    obtain ⟨notDoomed, notLater⟩ := not_or.mp stays
    exact (left.kept notDoomed).trans @comp (right.kept notLater)
  · intro ino missing given
    exact right.fresh (left.fresh missing given)
      (Nat.lt_of_lt_of_le given left.nextInode)
  · exact left.nextInode.trans right.nextInode

theorem Swept.congr {before after : InodeTable} {doomed others : Ino → Prop}
    (swept : Swept same before after doomed)
    (iff : ∀ ino, others ino ↔ doomed ino) :
    Swept same before after others := by
  have equal : others = doomed := by
    funext ino
    exact propext (iff ino)
  rwa [equal]

theorem Swept.mono {weak : InodeEntry → InodeEntry → Prop}
    {before after : InodeTable} {doomed : Ino → Prop}
    (swept : Swept same before after doomed)
    (weaken : ∀ {left right : InodeEntry}, same left right →
      weak left right) : Swept weak before after doomed :=
  ⟨swept.gone, fun stays => (swept.kept stays).mono weaken, swept.fresh,
    swept.nextInode⟩

end

/-- The same place with the same object. -/
def SameInode (left right : InodeEntry) : Prop :=
  left.SamePlace right ∧ SameObject left right

theorem SameInode.refl (entry : InodeEntry) : SameInode entry entry :=
  ⟨.refl entry, .refl entry⟩

theorem SameInode.trans {first second third : InodeEntry}
    (left : SameInode first second) (right : SameInode second third) :
    SameInode first third :=
  ⟨left.1.trans right.1, left.2.trans right.2⟩

/-- The directory of a removed child stays what it was. -/
theorem sameInode_shrunkParent {parentEntry : InodeEntry}
    (directory : parentEntry.kind = .directory) (child : Ino)
    (kind : InodeKind) :
    SameInode parentEntry
      (InodeTable.shrunkParent parentEntry child kind) := by
  refine ⟨InodeTable.samePlace_shrunkParent directory child kind, ?_⟩
  unfold InodeTable.shrunkParent InodeEntry.removeChildByIno
  split <;> exact ⟨⟨⟨rfl, rfl, rfl, rfl⟩, rfl⟩, rfl, rfl⟩

/-- Removing a child dooms what is at or below it. -/
theorem swept_remove {table : InodeTable} (tree : table.Treelike)
    {parent child : Ino} (listed : table.Lists parent child) :
    Swept SameInode table (table.remove child) (table.Below child) := by
  have cutsOff := tree.cutsOff listed
  obtain ⟨parentEntry, name, found, inChildren⟩ := id listed
  obtain ⟨entry, foundChild, _⟩ := tree.child found inChildren
  refine ⟨cutsOff.gone, ?_, ?_, cutsOff.nextInode.ge⟩
  · intro ino stays other foundOther
    by_cases isParent : ino = parent
    · subst isParent
      obtain rfl := Option.some.inj (found.symm.trans foundOther)
      exact ⟨_, cutsOff.above found foundChild,
        sameInode_shrunkParent (tree.directory found inChildren) _ _⟩
    · exact ⟨other, (cutsOff.others stays isParent).trans foundOther,
        .refl other⟩
  · intro ino missing _
    by_contra present
    obtain ⟨other, got⟩ := Option.ne_none_iff_exists'.mp present
    obtain ⟨_, entry, foundEntry⟩ := cutsOff.source listed got
    rw [missing] at foundEntry
    cases foundEntry

theorem wellFormed_remove_child {table : InodeTable} (wf : table.WellFormed)
    {parent : Ino} {parentEntry : InodeEntry} {child : DirChild}
    (found : table.get parent = some parentEntry)
    (listed : child ∈ parentEntry.children) :
    (table.remove child.ino).WellFormed := by
  obtain ⟨entry, isChild⟩ := wf.child found listed
  obtain ⟨_, notRoot, _⟩ := wf.directory found listed
  exact wf.pruned
    (InodeTable.pruned_remove wf isChild.found notRoot isChild.live)

theorem isDirectory_remove_child {table : InodeTable} (tree : table.Treelike)
    {parent child : Ino} (listed : table.Lists parent child) :
    (table.remove child).isDirectory parent = true := by
  have outside := tree.parent_not_below listed
  obtain ⟨parentEntry, name, found, inChildren⟩ := id listed
  obtain ⟨other, got, same, _⟩ :=
    (swept_remove tree listed).kept outside parentEntry found
  exact InodeTable.isDirectory_iff.mpr
    ⟨other, got, same.kind.trans (tree.directory found inChildren)⟩

/-- The children of a directory that are swept, without repetition. -/
structure Sweeps (table : InodeTable) (parent : Ino) (stale : List Ino) :
    Prop where
  nodup : stale.Nodup
  children : ∀ ino ∈ stale, ∃ entry name, table.get parent = some entry ∧
    ⟨ino, name⟩ ∈ entry.children

/-- What a swept child leaves: everything that is not below it. -/
theorem removed_child {table : InodeTable} (order : table.InOrder)
    {parent ino : Ino} {parentEntry : InodeEntry} {name : Name}
    (found : table.get parent = some parentEntry)
    (listed : ⟨ino, name⟩ ∈ parentEntry.children) :
    (table.remove ino).InOrder ∧
      table.Pruned (table.remove ino) (table.Below ino) ∧
      ¬ table.Below ino parent := by
  have wf := order.wf
  obtain ⟨entry, isChild⟩ := wf.child found listed
  obtain ⟨_, notRoot, _⟩ := wf.directory found listed
  have mapped := wf.path.mpr ⟨entry, isChild.found, isChild.live, rfl⟩
  have own : ∀ target, table.pathToInode entry.fullPath = some target →
      target = ino := by
    intro target hit
    exact Option.some.inj (hit.symm.trans mapped)
  have apart := wf.parent_not_below isChild.found notRoot isChild.live
  rw [isChild.parent] at apart
  exact ⟨order.remove isChild.found notRoot own,
    InodeTable.pruned_remove wf isChild.found notRoot isChild.live, apart⟩

section

variable {table : InodeTable} {parent first : Ino} {rest : List Ino}

theorem treelike_removeStale (tree : table.Treelike)
    (sweeps : Sweeps table parent (first :: rest)) :
    (removeStale table first).Treelike := by
  unfold removeStale
  split
  · exact tree
  have listed : table.Lists parent first :=
    sweeps.children first List.mem_cons_self
  exact (tree.cutsOff listed).treelike tree listed

/-- The rest of a sweep meets the other children as they were. -/
theorem Sweeps.removeStale (tree : table.Treelike)
    (sweeps : Sweeps table parent (first :: rest)) :
    Sweeps (removeStale table first) parent rest ∧
      ∀ child ∈ rest, ∀ {lower}, table.Below child lower →
        (removeStale table first).get lower = table.get lower := by
  obtain ⟨notLater, nodup⟩ := List.nodup_cons.mp sweeps.nodup
  unfold Vfs.removeStale
  split
  · refine ⟨⟨nodup, fun ino member => ?_⟩, fun _ _ _ _ => rfl⟩
    exact sweeps.children ino (List.mem_cons_of_mem _ member)
  have listed : table.Lists parent first :=
    sweeps.children first List.mem_cons_self
  have cutsOff := tree.cutsOff listed
  have sibling : ∀ child ∈ rest, child ≠ first ∧ table.Lists parent child := by
    intro child member
    refine ⟨?_, sweeps.children child (List.mem_cons_of_mem _ member)⟩
    rintro rfl
    exact notLater member
  refine ⟨⟨nodup, ?_⟩, ?_⟩
  · intro child member
    obtain ⟨different, parentEntry, name, found, inChildren⟩ :=
      sibling child member
    have outside := tree.parent_not_below listed
    obtain ⟨other, got, _, _, _, _, children⟩ :=
      cutsOff.entry tree listed found outside
    refine ⟨other, name, got, (children _).mpr ⟨inChildren, fun below => ?_⟩⟩
    rcases (tree.below_child_iff ⟨parentEntry, name, found, inChildren⟩).mp
      below with same | above
    · exact different same
    · exact outside above
  · intro child member lower below
    obtain ⟨different, listedOther⟩ := sibling child member
    exact cutsOff.sibling tree listed listedOther different below

theorem swept_removeStale_first (tree : table.Treelike)
    (sweeps : Sweeps table parent (first :: rest)) :
    Swept SameInode table (removeStale table first)
      fun ino => table.Below first ino ∧ ¬ table.BusyBelow first := by
  unfold removeStale
  split <;> rename_i busy
  · apply (Swept.refl SameInode.refl table).congr
    intro ino
    exact iff_false_intro fun doomed =>
      doomed.2 (tree.hasDirtyOrOpenDescendants_iff.mp busy)
  · apply (swept_remove tree (sweeps.children first List.mem_cons_self)).congr
    intro ino
    rw [tree.hasDirtyOrOpenDescendants_iff] at busy
    exact and_iff_left busy

end

/-- A sweep dooms what is at or below a swept child that has nothing dirty or
open at or below it. -/
theorem swept_removeStale {stale : List Ino} {table : InodeTable}
    (tree : table.Treelike) {parent : Ino}
    (sweeps : Sweeps table parent stale) :
    Swept SameInode table (stale.foldl removeStale table) fun ino =>
      ∃ child ∈ stale, table.Below child ino ∧ ¬ table.BusyBelow child := by
  induction stale generalizing table with
  | nil =>
      apply (Swept.refl SameInode.refl table).congr
      simp
  | cons first rest ih =>
      obtain ⟨sweepsRest, intact⟩ := sweeps.removeStale tree
      have one := swept_removeStale_first tree sweeps
      have others := ih (treelike_removeStale tree sweeps) sweepsRest
      rw [List.foldl_cons]
      apply (one.trans .trans others ?_).congr
      · intro ino
        rw [List.exists_mem_cons_iff]
        refine or_congr_right (exists_congr fun child => ?_)
        refine and_congr_right fun member => ?_
        rw [InodeTable.below_congr (intact child member),
          InodeTable.busyBelow_congr (intact child member)]
      · rintro ino ⟨below, _⟩
        obtain ⟨entry, _, found, inChildren⟩ :=
          sweeps.children first List.mem_cons_self
        obtain ⟨_, foundChild, _⟩ := tree.child found inChildren
        obtain ⟨lowerEntry, foundLower⟩ := tree.below foundChild below
        exact tree.given foundLower

theorem inOrder_removeStale {stale : List Ino} {table : InodeTable}
    (order : table.InOrder) {parent : Ino}
    (sweeps : Sweeps table parent stale) :
    (stale.foldl removeStale table).InOrder := by
  induction stale generalizing table with
  | nil => exact order
  | cons first rest ih =>
      rw [List.foldl_cons]
      apply ih _ (sweeps.removeStale order.wf.treelike).1
      unfold removeStale
      split
      · exact order
      · obtain ⟨parentEntry, name, found, listed⟩ :=
          sweeps.children first List.mem_cons_self
        exact (removed_child order found listed).1

/-- A sweep leaves the table in order, and keeps every inode that is below a
swept child only together with something dirty or open. -/
theorem keeps_removeStale {stale : List Ino} {table : InodeTable}
    (order : table.InOrder) {parent : Ino}
    (sweeps : Sweeps table parent stale) :
    (stale.foldl removeStale table).InOrder ∧
      ∀ ino entry, table.get ino = some entry →
        (∀ child ∈ stale, table.Below child ino →
          table.hasDirtyOrOpenDescendants child = true) →
        ∃ other, (stale.foldl removeStale table).get ino = some other ∧
          entry.SamePlace other ∧ SameObject entry other := by
  refine ⟨inOrder_removeStale order sweeps, ?_⟩
  intro ino entry found spared
  apply (swept_removeStale order.wf.treelike sweeps).kept _ entry found
  rintro ⟨child, member, below, notBusy⟩
  exact notBusy
    (order.wf.treelike.hasDirtyOrOpenDescendants_iff.mp
      (spared child member below))

/-! ## The whole load -/

/-- The load spares what has the inode at or below it: each child of the
directory with the inode at or below it is listed, or has something dirty or
open at or below it. -/
def LoadSpares (settings : ListingSettings) (listing : Listing) (parent : Ino)
    (table : InodeTable) (ino : Ino) : Prop :=
  table.isChildrenLoaded parent = false →
    ∀ parentEntry ∈ table.get parent, ∀ child ∈ parentEntry.children,
      AtOrAbove table child.ino ino →
        child.name ∈ listing.names settings ∨
          table.hasDirtyOrOpenDescendants child.ino = true

instance (settings : ListingSettings) (listing : Listing) (parent : Ino)
    (table : InodeTable) (ino : Ino) :
    Decidable (LoadSpares settings listing parent table ino) :=
  inferInstanceAs (Decidable (_ → _))

theorem Grows.below {before after : InodeTable} (grows : Grows before after)
    {upper lower : Ino} (below : before.Below upper lower) :
    after.Below upper lower := by
  induction below with
  | refl => exact .refl
  | tail _ one ih =>
      obtain ⟨entry, name, found, listed⟩ := one
      obtain ⟨other, got, _, _, children⟩ := grows _ entry found
      exact ih.tail ⟨other, name, got, children _ listed⟩

/-- An old inode is listed where it was before. -/
theorem Grows.child_back {before after : InodeTable}
    (grows : Grows before after) (wf : before.WellFormed)
    (wfAfter : after.WellFormed) {parent child : Ino} {name : Name}
    {parentEntry entry : InodeEntry}
    (foundParent : after.get parent = some parentEntry)
    (listed : ⟨child, name⟩ ∈ parentEntry.children)
    (found : before.get child = some entry) :
    ∃ oldParent, before.get parent = some oldParent ∧
      ⟨child, name⟩ ∈ oldParent.children := by
  obtain ⟨childEntry, isChild⟩ := wfAfter.child foundParent listed
  obtain ⟨_, notRoot, _⟩ := wfAfter.directory foundParent listed
  obtain ⟨other, got, place, _⟩ := grows child entry found
  obtain rfl := Option.some.inj (got.symm.trans isChild.found)
  obtain ⟨oldParent, foundOld, attached⟩ := wf.attached found notRoot
    (place.isLive.symm.trans isChild.live)
  rw [← place.parent, isChild.parent] at foundOld
  rw [← place.name, isChild.name] at attached
  exact ⟨oldParent, foundOld, attached⟩

/-- What is above an old inode was above it before. -/
theorem Grows.below_back {before after : InodeTable}
    (grows : Grows before after) (wf : before.WellFormed)
    (wfAfter : after.WellFormed) {upper lower : Ino} {entry : InodeEntry}
    (below : after.Below upper lower) (found : before.get lower = some entry) :
    ∃ upperEntry, before.get upper = some upperEntry ∧
      before.Below upper lower := by
  induction below generalizing entry with
  | refl => exact ⟨entry, found, .refl⟩
  | tail _ one ih =>
      obtain ⟨middleEntry, name, foundMiddle, listed⟩ := one
      obtain ⟨oldParent, foundParent, attached⟩ :=
        grows.child_back wf wfAfter foundMiddle listed found
      obtain ⟨upperEntry, foundUpper, up⟩ := ih foundParent
      exact ⟨upperEntry, foundUpper,
        up.tail ⟨oldParent, name, foundParent, attached⟩⟩

theorem sweeps_staleChildren {table : InodeTable} (tree : table.Treelike)
    (parent : Ino) (seen : List Name) :
    Sweeps table parent (staleChildren table parent seen) ∧
      ∀ ino ∈ staleChildren table parent seen, ∃ entry name,
        table.get parent = some entry ∧ ⟨ino, name⟩ ∈ entry.children ∧
          name ∉ seen := by
  have stale : ∀ ino ∈ staleChildren table parent seen, ∃ entry name,
      table.get parent = some entry ∧ ⟨ino, name⟩ ∈ entry.children ∧
        name ∉ seen := by
    intro ino member
    unfold staleChildren at member
    split at member <;> rename_i found
    · cases member
    obtain ⟨child, kept, rfl⟩ := List.mem_map.mp member
    obtain ⟨listed, isStale⟩ := List.mem_filter.mp kept
    refine ⟨_, child.name, found, listed, ?_⟩
    intro inListing
    simp [inListing] at isStale
  refine ⟨⟨?_, ?_⟩, stale⟩
  · unfold staleChildren
    split <;> rename_i found
    · exact List.nodup_nil
    · exact (tree.nodup found).sublist (List.filter_sublist.map _)
  · intro ino member
    obtain ⟨entry, name, found, listed, _⟩ := stale ino member
    exact ⟨entry, name, found, listed⟩

/-- A load leaves the table in order, and every inode that it spares in its
place. -/
theorem keeps_installListing {settings : ListingSettings} {listing : Listing}
    {parent : Ino} {now : Time} {table : InodeTable} (order : table.InOrder)
    (fits : listing.Fits table parent) :
    (installListing settings listing parent now table).2.InOrder ∧
      ∀ ino entry, table.get ino = some entry →
        LoadSpares settings listing parent table ino →
        ∃ other, (installListing settings listing parent now table).2.get ino =
            some other ∧ entry.SamePlace other ∧ SameFile entry other := by
  have unchanged : table.InOrder ∧ ∀ ino entry, table.get ino = some entry →
      LoadSpares settings listing parent table ino →
      ∃ other, table.get ino = some other ∧ entry.SamePlace other ∧
        SameFile entry other :=
    ⟨order, fun ino entry found _ => ⟨entry, found, .refl entry, .refl entry⟩⟩
  unfold installListing
  split <;> rename_i foundParent
  · exact unchanged
  rename_i parentEntry
  split <;> rename_i loaded
  · exact unchanged
  split <;> rename_i directory
  · exact unchanged
  have isDirectory : table.isDirectory parent = true :=
    InodeTable.isDirectory_iff.mpr
      ⟨parentEntry, foundParent, not_not.mp directory⟩
  obtain ⟨ready, grows⟩ := @ready_installEntries settings listing parent now
    table order isDirectory fits
  obtain ⟨sweeps, unseen⟩ := sweeps_staleChildren ready.order.wf.treelike
    parent
    ((installEntries settings listing parent now table).seenNames ++
      (installEntries settings listing parent now table).seenDirs)
  obtain ⟨swept, keeps⟩ := keeps_removeStale ready.order sweeps
  refine ⟨swept.update parent fun _ =>
    .of_fields rfl, ?_⟩
  intro ino entry found spares
  have notLoaded : table.isChildrenLoaded parent = false := by
    unfold InodeTable.isChildrenLoaded
    rw [foundParent]
    simpa using loaded
  obtain ⟨grown, gotGrown, place, file, _⟩ := grows ino entry found
  -- A swept child above the inode was a child before, and was spared.
  have spared : ∀ child ∈ staleChildren
      (installEntries settings listing parent now table).table parent
      ((installEntries settings listing parent now table).seenNames ++
        (installEntries settings listing parent now table).seenDirs),
      (installEntries settings listing parent now table).table.Below child
        ino → (installEntries settings listing parent now
          table).table.hasDirtyOrOpenDescendants child = true := by
    intro child member below
    obtain ⟨dirEntry, name, foundDir, listed, notSeen⟩ := unseen child member
    obtain ⟨childEntry, foundChild, belowBefore⟩ :=
      grows.below_back order.wf ready.order.wf below found
    obtain ⟨oldParent, foundOld, attached⟩ := grows.child_back order.wf
      ready.order.wf foundDir listed foundChild
    have above := atOrAbove_of_below order.wf belowBefore
    rcases spares notLoaded oldParent foundOld _ attached above with
      isListed | busy
    · exact absurd (mem_seen_installEntries.mpr isListed) notSeen
    · obtain ⟨lower, lowerEntry, down, foundLower, isBusy⟩ :=
        order.wf.treelike.hasDirtyOrOpenDescendants_iff.mp busy
      obtain ⟨newLower, gotLower, _, sameLower, _⟩ :=
        grows lower lowerEntry foundLower
      refine ready.order.wf.treelike.hasDirtyOrOpenDescendants_iff.mpr
        ⟨lower, newLower, grows.below down, gotLower, ?_⟩
      rw [busy_of_sameFile sameLower]
      exact isBusy
  obtain ⟨last, gotLast, lastPlace, lastFile⟩ :=
    keeps ino grown gotGrown spared
  dsimp only
  rw [InodeTable.get_modify]
  split <;> rename_i here
  · subst here
    rw [gotLast]
    exact ⟨_, rfl, (place.trans lastPlace).trans
        ⟨rfl, rfl, rfl, rfl, rfl, fun _ => rfl⟩,
      (file.trans lastFile.toSameFile).trans ⟨⟨rfl, rfl, rfl, rfl⟩, rfl⟩⟩
  · exact ⟨last, gotLast, place.trans lastPlace,
      file.trans lastFile.toSameFile⟩

end HfMount.Vfs
