import HfMount.Vfs.InstalledListing

/-!
# What a load shows of its listing

The children that a directory has already are kept as they are: the listing
changes their object id and the size of their ciphertext, and nothing else.
New children come from the first entry that brings their name.  A file that is
not what the listing says is repaired by the next poll or revalidation, if one
of them can tell the difference.
-/

namespace HfMount.Vfs

open SlashPath Inode Poll

/-- The kind of the child that an entry brings. -/
def Listing.childKind (listing : Listing) (entry : TreeEntry) : InodeKind :=
  if (listing.relPath entry).any (·.contains '/') then .directory
  else listedKind entry

section

variable {settings : ListingSettings} {listing : Listing} {parent : Ino}
  {now : Time}

/-! ## Names and lookups while a listing is installed -/

/-- An inode that is still in its place is still found. -/
theorem lookup_place {before after : InodeTable} (wf : before.WellFormed)
    (wfAfter : after.WellFormed) {name : Name} {entry other : InodeEntry}
    (looked : before.lookupChild parent name = some entry)
    (got : after.get entry.inode = some other)
    (place : entry.SamePlace other) :
    after.lookupChild parent name = some other := by
  obtain ⟨parentEntry, found, listed, isChild⟩ := wf.lookupChild.mp looked
  obtain ⟨_, notRoot, _⟩ := wf.directory found listed
  have again := wfAfter.lookupChild_self got notRoot
    (place.isLive.trans isChild.live)
  rwa [place.parent, place.name, isChild.parent, isChild.name] at again

theorem Grows.lookup {before after : InodeTable} (grows : Grows before after)
    (wf : before.WellFormed) (wfAfter : after.WellFormed) {name : Name}
    {entry : InodeEntry}
    (looked : before.lookupChild parent name = some entry) :
    ∃ other, after.lookupChild parent name = some other ∧
      entry.SamePlace other ∧ SameFile entry other := by
  obtain ⟨_, _, _, isChild⟩ := wf.lookupChild.mp looked
  obtain ⟨other, got, place, file, _⟩ := grows entry.inode entry isChild.found
  exact ⟨other, lookup_place wf wfAfter looked got place, place, file⟩

theorem slot_modify (table : InodeTable) (ino : Ino)
    {change : InodeEntry → InodeEntry}
    (same : ∀ entry, (change entry).childIndex = entry.childIndex) (dir : Ino)
    (name : Name) : slot (table.modify ino change) dir name =
      slot table dir name := by
  cases found : table.get ino with
  | none => rw [InodeTable.modify_of_none found]
  | some entry =>
      rw [InodeTable.modify_of_some found]
      exact slot_put found (same entry) dir name

/-- An insertion gives no slot to another name. -/
theorem slot_insert_of_ne {table : InodeTable} {name other : Name}
    (old : parent < table.nextInode) (different : other ≠ name)
    (fullPath : Path) (kind : InodeKind) (size : Nat) (mtime : Time)
    (xetHash : Option Hash) (mode uid gid : Nat) :
    slot (table.insert parent name fullPath kind size mtime xetHash mode uid
      gid now).2 parent other = slot table parent other := by
  unfold InodeTable.insert
  split
  · apply slot_modify
    simp
  · unfold slot
    dsimp only
    rw [InodeTable.get_modify, if_pos rfl]
    have kept : (AList.insert table.nextInode (InodeEntry.new table.nextInode
        parent name fullPath kind size mtime xetHash mode uid gid now
        table.touchCounter) table.inodes).lookup parent = table.get parent :=
      AList.lookup_insert_ne (Nat.ne_of_lt old)
    unfold InodeTable.get at kept ⊢
    dsimp only
    rw [kept]
    cases table.inodes.lookup parent with
    | none => rfl
    | some parentEntry =>
        simp [InodeEntry.addChild, Function.update_of_ne different]

theorem slot_tagListed (table : InodeTable) (ino : Ino)
    (cipherSize : Option Nat) (oid : Option Hash) (dir : Ino) (name : Name) :
    slot (tagListed table ino cipherSize oid) dir name =
      slot table dir name := by
  have sized : slot (if cipherSize.isSome then
        table.modify ino fun entry => { entry with cipherSize } else table)
      dir name = slot table dir name := by
    split
    · apply slot_modify
      simp
    · rfl
  unfold tagListed
  dsimp only
  split
  · rw [slot_modify _ _ (by simp), sized]
  · exact sized

/-- An entry that brings another name leaves a free name free. -/
theorem free_installEntry {state : Installing}
    (ready : Ready listing parent state.table) {entry : TreeEntry}
    {name : Name} (other : listing.childName settings entry ≠ some name)
    (free : slot state.table parent name = none) :
    slot (installEntry settings listing parent now state entry).table parent
      name = none := by
  obtain ⟨_, found, _⟩ := ready.dir
  have old := (ready.order.wf.key found).2
  unfold Listing.childName at other
  unfold installEntry
  split <;> rename_i shown
  · exact free
  rename_i rel
  rw [shown, Option.bind_some] at other
  split <;> rename_i nested
  · rw [if_pos nested] at other
    have different : name ≠ topName rel := fun same => other (by rw [same])
    unfold installNested
    dsimp only
    split
    · exact free
    · exact (slot_insert_of_ne old different _ _ _ _ _ _ _ _).trans free
  · rw [if_neg nested] at other
    unfold installDirect
    split <;> rename_i sized
    · exact free
    · have different : name ≠ rel := by
        rintro rfl
        exact other (by rw [sized]; rfl)
      dsimp only
      rw [slot_tagListed]
      exact (slot_insert_of_ne old different _ _ _ _ _ _ _ _).trans free

/-! ## The first entry that brings a name -/

/-- The child is the one that the entry brings. -/
structure Brought (settings : ListingSettings) (listing : Listing)
    (listed : TreeEntry) (child : InodeEntry) : Prop where
  kind : child.kind = listing.childKind listed
  clean : child.isDirty = false
  closed : child.hasOpenHandles = false
  content : child.kind = .file → child.xetHash = listed.xetHash ∧
    (listedSize settings listing listed).map (·.1) = some child.size

theorem Brought.sameFile {listed : TreeEntry} {child other : InodeEntry}
    (brought : Brought settings listing listed child)
    (same : SameFile child other) : Brought settings listing listed other := by
  refine ⟨same.kind.trans brought.kind, ?_, ?_, ?_⟩
  · unfold InodeEntry.isDirty
    rw [same.dirtyGeneration]
    exact brought.clean
  · unfold InodeEntry.hasOpenHandles
    rw [same.openHandles]
    exact brought.closed
  · intro file
    rw [same.xetHash, same.size]
    exact brought.content (same.kind.symm.trans file)

/-- What an insertion under a free name leaves there. -/
theorem lookup_insert_of_free {table : InodeTable}
    (ready : Ready listing parent table) {name : Name} (valid : ValidName name)
    (free : slot table parent name = none) (kind : InodeKind) (size : Nat)
    (mtime : Time) (xetHash : Option Hash) (mode uid gid : Nat) :
    ∃ child, (table.insert parent name (childPath listing.dir name) kind size
        mtime xetHash mode uid gid now).2.lookupChild parent name =
          some child ∧
      child.kind = kind ∧ child.isDirty = false ∧
      child.hasOpenHandles = false ∧ child.xetHash = xetHash ∧
      child.size = size := by
  obtain ⟨parentEntry, found, directory, path⟩ := ready.dir
  have unnamed : parentEntry.childIndex name = none := by
    unfold slot at free
    rwa [found] at free
  obtain ⟨after, inserted, _, _, foundNew, foundParent, _⟩ :=
    InodeTable.insert_of_free ready.order.wf found directory valid unnamed kind
      size mtime xetHash mode uid gid now
  rw [← path, inserted]
  have looked : after.lookupChild parent name = after.get table.nextInode := by
    unfold InodeTable.lookupChild
    rw [foundParent]
    simp only [InodeTable.grownParent, InodeEntry.addChild, Option.bind_some,
      Function.update_self]
  exact ⟨_, looked.trans foundNew, rfl, rfl, rfl, rfl, rfl⟩

/-- The first entry that brings a name makes the child. -/
theorem brought_installEntry {state : Installing}
    (ready : Ready listing parent state.table) {entry : TreeEntry}
    (named : ∀ rel ∈ listing.relPath entry, topName rel ≠ []) {name : Name}
    (brings : listing.childName settings entry = some name)
    (free : slot state.table parent name = none)
    (unseen : name ∉ state.seenNames ++ state.seenDirs) :
    ∃ child, (installEntry settings listing parent now state
        entry).table.lookupChild parent name = some child ∧
      Brought settings listing entry child := by
  unfold Listing.childName at brings
  obtain ⟨rel, shown, brings⟩ := Option.bind_eq_some_iff.mp brings
  have valid : ValidName (topName rel) :=
    ⟨named rel shown, no_slash_topName rel⟩
  unfold installEntry
  rw [shown]
  dsimp only
  by_cases nested : rel.contains '/' = true
  · rw [if_pos nested] at brings ⊢
    obtain rfl := Option.some.inj brings
    have notSeen : ¬ state.seenDirs.contains (rel.takeWhile (· ≠ '/')) =
        true := by
      intro seen
      exact unseen (List.mem_append_right _ (List.contains_iff_mem.mp seen))
    obtain ⟨child, looked, kind, clean, closed, _⟩ := lookup_insert_of_free
      ready valid free .directory 0 settings.defaultMtime none settings.dirMode
      settings.uid settings.gid
    refine ⟨child, ?_, ?_, clean, closed, ?_⟩
    · unfold installNested
      dsimp only
      rw [if_neg notSeen]
      exact looked
    · unfold Listing.childKind
      rw [kind, shown, Option.any_some, if_pos nested]
    · intro file
      rw [kind] at file
      cases file
  · rw [if_neg nested] at brings ⊢
    have direct : '/' ∉ rel := by simpa using nested
    rw [topName_of_no_slash direct] at valid
    obtain ⟨sizes, sized, rfl⟩ := Option.map_eq_some_iff.mp brings
    unfold installDirect
    rw [sized, Listing.path_of_relPath shown]
    dsimp only
    obtain ⟨child, looked, kind, clean, closed, hash, size⟩ :=
      lookup_insert_of_free ready valid free (listedKind entry) sizes.1
        (entry.mtime.getD settings.defaultMtime) entry.xetHash
        (if listedKind entry = .directory then settings.dirMode
          else settings.fileMode) settings.uid settings.gid
    obtain ⟨inserted, _⟩ := ready.insert valid (listedKind entry) sizes.1
      (entry.mtime.getD settings.defaultMtime) entry.xetHash
      (if listedKind entry = .directory then settings.dirMode
        else settings.fileMode) settings.uid settings.gid now
    obtain ⟨tagged, grows⟩ := inserted.tagListed (state.table.insert parent
      rel (childPath listing.dir rel) (listedKind entry) sizes.1
      (entry.mtime.getD settings.defaultMtime) entry.xetHash
      (if listedKind entry = .directory then settings.dirMode
        else settings.fileMode) settings.uid settings.gid now).1 sizes.2
      entry.oid
    obtain ⟨last, lookedLast, _, same⟩ :=
      grows.lookup inserted.order.wf tagged.order.wf looked
    refine ⟨last, lookedLast, Brought.sameFile ⟨?_, clean, closed, ?_⟩ same⟩
    · unfold Listing.childKind
      rw [kind, shown, Option.any_some, if_neg nested]
    · intro _
      rw [hash, size, sized]
      exact ⟨rfl, rfl⟩

theorem brought_foldl {entries : List TreeEntry} {state : Installing}
    (ready : Ready listing parent state.table)
    (named : ∀ entry ∈ entries, ∀ rel ∈ listing.relPath entry,
      topName rel ≠ []) {name : Name}
    (free : slot state.table parent name = none)
    (unseen : name ∉ state.seenNames ++ state.seenDirs)
    (listed : name ∈ entries.filterMap (listing.childName settings)) :
    ∃ entry ∈ entries, listing.childName settings entry = some name ∧
      ∃ child, (entries.foldl (installEntry settings listing parent now)
          state).table.lookupChild parent name = some child ∧
        Brought settings listing entry child := by
  induction entries generalizing state with
  | nil => cases listed
  | cons entry entries ih =>
      rw [List.foldl_cons]
      have namedRest : ∀ later ∈ entries, ∀ rel ∈ listing.relPath later,
          topName rel ≠ [] :=
        fun later member => named later (List.mem_cons_of_mem _ member)
      obtain ⟨first, _⟩ := @ready_installEntry settings listing parent now
        state ready entry (named entry List.mem_cons_self)
      by_cases brings : listing.childName settings entry = some name
      · obtain ⟨child, looked, brought⟩ := brought_installEntry ready
          (named entry List.mem_cons_self) brings free unseen
        obtain ⟨rest, grows⟩ := @ready_foldl_installEntry settings listing
          parent now entries _ first namedRest
        obtain ⟨last, lookedLast, _, same⟩ :=
          grows.lookup first.order.wf rest.order.wf looked
        exact ⟨entry, List.mem_cons_self, brings, last, lookedLast,
          brought.sameFile same⟩
      · have later : name ∈ entries.filterMap (listing.childName settings) := by
          obtain ⟨found, member, isNamed⟩ := List.mem_filterMap.mp listed
          rcases List.mem_cons.mp member with rfl | inRest
          · exact absurd isNamed brings
          · exact List.mem_filterMap.mpr ⟨found, inRest, isNamed⟩
        have stillUnseen : name ∉
            (installEntry settings listing parent now state entry).seenNames ++
              (installEntry settings listing parent now state
                entry).seenDirs := by
          rw [mem_seen_installEntry, not_or]
          exact ⟨unseen, brings⟩
        obtain ⟨found, member, rest⟩ := ih first namedRest
          (free_installEntry ready brings free) stillUnseen later
        exact ⟨found, List.mem_cons_of_mem _ member, rest⟩

/-! ## The children after the load -/

theorem installListing_eq {table : InodeTable} {entry : InodeEntry}
    (found : table.get parent = some entry)
    (directory : entry.kind = .directory)
    (unloaded : entry.childrenLoaded = false) :
    (installListing settings listing parent now table).2 =
      ((staleChildren (installEntries settings listing parent now table).table
          parent
          ((installEntries settings listing parent now table).seenNames ++
            (installEntries settings listing parent now table).seenDirs)).foldl
        removeStale
        (installEntries settings listing parent now table).table).modify parent
        fun e =>
          { e with
            childrenLoadedAt := some now
            childrenFromRemote := true } := by
  unfold installListing
  simp [found, directory, unloaded]

/-- The sweep keeps a child that the listing has. -/
theorem listed_stays {table : InodeTable} (order : table.InOrder)
    (directory : table.isDirectory parent = true)
    (unloaded : table.isChildrenLoaded parent = false)
    (fits : listing.Fits table parent) {name : Name}
    (listed : name ∈ listing.names settings) {child : InodeEntry}
    (looked : (installEntries settings listing parent now
      table).table.lookupChild parent name = some child) :
    ∃ other, (installListing settings listing parent now table).2.lookupChild
        parent name = some other ∧
      child.SamePlace other ∧ SameObject child other := by
  obtain ⟨parentEntry, foundParent, isDirectory⟩ :=
    InodeTable.isDirectory_iff.mp directory
  have notLoaded : parentEntry.childrenLoaded = false := by
    unfold InodeTable.isChildrenLoaded at unloaded
    rwa [foundParent] at unloaded
  obtain ⟨ready, _⟩ := @ready_installEntries settings listing parent now table
    order directory fits
  obtain ⟨sweeps, unseen⟩ := sweeps_staleChildren ready.order.wf.treelike
    parent
    ((installEntries settings listing parent now table).seenNames ++
      (installEntries settings listing parent now table).seenDirs)
  obtain ⟨swept, keeps⟩ := keeps_removeStale ready.order sweeps
  obtain ⟨installedEntry, found, attached, isChild⟩ :=
    ready.order.wf.lookupChild.mp looked
  -- No swept child is above one that is listed: they would be the same.
  obtain ⟨last, got, place, same⟩ := keeps child.inode child isChild.found
    fun stale member below => by
      obtain ⟨entry, staleName, foundAgain, listedStale, notSeen⟩ :=
        unseen stale member
      obtain rfl := Option.some.inj (found.symm.trans foundAgain)
      have sameIno : stale = child.inode :=
        sibling_eq ready.order.wf found listedStale attached below .refl
      subst sameIno
      obtain ⟨again, isStale⟩ := ready.order.wf.child found listedStale
      obtain rfl := Option.some.inj (isChild.found.symm.trans isStale.found)
      have sameName : staleName = name := isStale.name.symm.trans isChild.name
      rw [sameName] at notSeen
      exact absurd (mem_seen_installEntries.mpr listed) notSeen
  rw [installListing_eq foundParent isDirectory notLoaded]
  have loadedAt : ∃ other, (InodeTable.modify
      ((staleChildren (installEntries settings listing parent now table).table
          parent
          ((installEntries settings listing parent now table).seenNames ++
            (installEntries settings listing parent now table).seenDirs)).foldl
        removeStale (installEntries settings listing parent now table).table)
      parent fun e =>
        { e with
          childrenLoadedAt := some now
          childrenFromRemote := true }).get child.inode = some other ∧
      child.SamePlace other ∧ SameObject child other := by
    rw [InodeTable.get_modify]
    split <;> rename_i here
    · rw [here] at got
      rw [got]
      exact ⟨_, rfl, place.trans ⟨rfl, rfl, rfl, rfl, rfl, fun _ => rfl⟩,
        same.trans ⟨⟨⟨rfl, rfl, rfl, rfl⟩, rfl⟩, rfl, rfl⟩⟩
    · exact ⟨last, got, place, same⟩
  obtain ⟨other, gotOther, placeOther, sameOther⟩ := loadedAt
  have orderAfter := swept.update parent
    (fun e : InodeEntry => (.of_fields rfl : e.SameLinks { e with
        childrenLoadedAt := some now
        childrenFromRemote := true }))
  exact ⟨other, lookup_place ready.order.wf orderAfter.wf looked gotOther
    placeOther, placeOther, sameOther⟩

/-- The child of a listed name: the one that was there, or the one that the
first entry with the name brings. -/
theorem child_of_listed {table : InodeTable} (order : table.InOrder)
    (directory : table.isDirectory parent = true)
    (unloaded : table.isChildrenLoaded parent = false)
    (fits : listing.Fits table parent) {name : Name}
    (listed : name ∈ listing.names settings) :
    ∃ installed child, (installEntries settings listing parent now
        table).table.lookupChild parent name = some installed ∧
      (installListing settings listing parent now table).2.lookupChild parent
        name = some child ∧
      SameObject installed child ∧
      ((∃ old, table.lookupChild parent name = some old ∧
          old.SamePlace child ∧ SameFile old child) ∨
        table.lookupChild parent name = none ∧
          ∃ entry ∈ listing.entries,
            listing.childName settings entry = some name ∧
            Brought settings listing entry child) := by
  obtain ⟨parentEntry, foundParent, isDirectory⟩ :=
    InodeTable.isDirectory_iff.mp directory
  obtain ⟨ready, grows⟩ := @ready_installEntries settings listing parent now
    table order directory fits
  cases looked : table.lookupChild parent name with
  | some old =>
      obtain ⟨installed, lookedInstalled, place, file⟩ :=
        grows.lookup order.wf ready.order.wf looked
      obtain ⟨child, lookedChild, placeChild, same⟩ := listed_stays order
        directory unloaded fits listed lookedInstalled
      exact ⟨installed, child, lookedInstalled, lookedChild, same,
        Or.inl ⟨old, rfl, place.trans placeChild,
          file.trans same.toSameFile⟩⟩
  | none =>
      have start : Ready listing parent table :=
        ⟨order, parentEntry, foundParent, isDirectory,
          fits.1 parentEntry foundParent⟩
      obtain ⟨entry, member, brings, installed, lookedInstalled, brought⟩ :=
        @brought_foldl settings listing parent now listing.entries
          ⟨table, [], []⟩ start fits.2 name (order.wf.slot_none looked)
          (by simp) listed
      obtain ⟨child, lookedChild, _, same⟩ := listed_stays order directory
        unloaded fits listed lookedInstalled
      exact ⟨installed, child, lookedInstalled, lookedChild, same,
        Or.inr ⟨rfl, entry, member, brings,
          brought.sameFile same.toSameFile⟩⟩

/-- The load leaves the directory where it is. -/
theorem dir_kept {table : InodeTable} (order : table.InOrder)
    (fits : listing.Fits table parent) {parentEntry : InodeEntry}
    (found : table.get parent = some parentEntry) :
    ∃ other, (installListing settings listing parent now table).2.get parent =
      some other ∧ parentEntry.SamePlace other := by
  have spares : LoadSpares settings listing parent table parent := by
    intro _ again foundAgain child listed above
    obtain ⟨entry, isChild⟩ := order.wf.child foundAgain listed
    obtain ⟨_, notRoot, _⟩ := order.wf.directory foundAgain listed
    have apart := order.wf.parent_not_below isChild.found notRoot isChild.live
    rw [isChild.parent] at apart
    exact absurd (InodeTable.mem_descendants_below above) apart
  obtain ⟨_, keeps⟩ := @keeps_installListing settings listing parent now table
    order fits
  obtain ⟨other, got, place, _⟩ := keeps parent parentEntry found spares
  exact ⟨other, got, place⟩

end

end HfMount.Vfs
