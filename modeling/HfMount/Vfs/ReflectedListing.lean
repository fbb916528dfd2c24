import HfMount.Vfs.ListedChildren

/-!
# What the next poll makes of an installed listing

A load leaves the hash and the size of a child that was there already, but
tells an encrypted file the size of the listed ciphertext.  What still differs
afterwards shows in the hash, or in the size of the object.
-/

namespace HfMount.Vfs

open SlashPath Inode Poll

section

variable {settings : ListingSettings} {listing : Listing} {parent : Ino}
  {now : Time}

/-! ## The size of the ciphertext while a listing is installed -/

/-- A ciphertext size that was known is still known. -/
def StillSized (left right : InodeEntry) : Prop :=
  left.cipherSize.isSome = true → right.cipherSize.isSome = true

theorem StillSized.trans {first second third : InodeEntry}
    (left : StillSized first second) (right : StillSized second third) :
    StillSized first third :=
  fun sized => right (left sized)

theorem SameObject.stillSized {left right : InodeEntry}
    (same : SameObject left right) : StillSized left right := by
  intro sized
  rwa [same.cipherSize]

theorem sized_tagListed (table : InodeTable) (ino : Ino)
    (cipherSize : Option Nat) (oid : Option Hash) (other : Ino) :
    Kept StillSized table (tagListed table ino cipherSize oid) other := by
  have sized : Kept StillSized table (if cipherSize.isSome then
      table.modify ino fun entry => { entry with cipherSize } else table)
      other := by
    split <;> rename_i given
    · exact kept_modify (fun _ => id) table ino (fun _ _ => given) other
    · exact fun entry found => ⟨entry, found, id⟩
  unfold tagListed
  dsimp only
  split
  · exact Kept.trans .trans sized
      (kept_modify (fun _ => id) _ ino (fun _ => id) other)
  · exact sized

theorem get_tagListed {table : InodeTable} {ino : Ino} {entry : InodeEntry}
    (found : table.get ino = some entry) (size : Nat) (oid : Option Hash) :
    ∃ other, (tagListed table ino (some size) oid).get ino = some other ∧
      other.cipherSize = some size := by
  unfold tagListed
  cases oid <;> simp [InodeTable.get_modify, found]

theorem sized_installEntry {state : Installing}
    (ready : Ready listing parent state.table) (entry : TreeEntry) (ino : Ino) :
    Kept StillSized state.table
      (installEntry settings listing parent now state entry).table ino := by
  intro old found
  have inserted : ∀ name fullPath kind size mtime xetHash mode,
      Kept StillSized state.table (state.table.insert parent name fullPath kind
        size mtime xetHash mode settings.uid settings.gid now).2 ino := by
    intro name fullPath kind size mtime xetHash mode
    exact (kept_insert (ready.order.wf.key found).2 parent name fullPath kind
      size mtime xetHash mode settings.uid settings.gid now).mono
        SameObject.stillSized
  unfold installEntry
  split
  · exact ⟨old, found, id⟩
  split
  · unfold installNested
    dsimp only
    split
    · exact ⟨old, found, id⟩
    · exact inserted _ _ _ _ _ _ _ old found
  · unfold installDirect
    split
    · exact ⟨old, found, id⟩
    · exact Kept.trans .trans (inserted _ _ _ _ _ _ _)
        (sized_tagListed _ _ _ _ ino) old found

theorem sized_foldl {entries : List TreeEntry} {state : Installing}
    (ready : Ready listing parent state.table)
    (named : ∀ entry ∈ entries, ∀ rel ∈ listing.relPath entry,
      topName rel ≠ []) (ino : Ino) :
    Kept StillSized state.table
      (entries.foldl (installEntry settings listing parent now) state).table
      ino := by
  induction entries generalizing state with
  | nil => exact fun entry found => ⟨entry, found, id⟩
  | cons entry entries ih =>
      obtain ⟨first, _⟩ := @ready_installEntry settings listing parent now
        state ready entry (named entry List.mem_cons_self)
      exact Kept.trans .trans (sized_installEntry ready entry ino)
        (ih first fun later member =>
          named later (List.mem_cons_of_mem _ member))

/-- An inserted inode is the one at its path. -/
theorem insert_mapped (table : InodeTable) (parent : Ino) (name : Name)
    (fullPath : Path) (kind : InodeKind) (size : Nat) (mtime : Time)
    (xetHash : Option Hash) (mode uid gid : Nat) (now : Time) :
    (table.insert parent name fullPath kind size mtime xetHash mode uid gid
        now).2.pathToInode fullPath =
      some (table.insert parent name fullPath kind size mtime xetHash mode uid
        gid now).1 := by
  unfold InodeTable.insert
  split <;> rename_i mapped
  · rw [InodeTable.pathToInode_modify]
    exact mapped
  · rw [InodeTable.pathToInode_modify]
    exact Function.update_self _ _ _

/-- The entry of an encrypted file tells the inode at its path the size of its
ciphertext. -/
theorem sized_installDirect {state : Installing}
    (ready : Ready listing parent state.table) {entry : TreeEntry}
    {name : Name} (named : name ≠ [])
    (shown : listing.relPath entry = some name) (direct : '/' ∉ name)
    {size cipherSize : Nat}
    (sizes : listedSize settings listing entry = some (size, some cipherSize)) :
    ∃ ino child, (installEntry settings listing parent now state
        entry).table.get ino = some child ∧
      child.fullPath = childPath listing.dir name ∧ child.isLive = true ∧
      child.cipherSize.isSome = true := by
  have nested : ¬ name.contains '/' = true := by simpa using direct
  unfold installEntry
  simp only [shown]
  rw [if_neg nested]
  unfold installDirect
  rw [sizes, Listing.path_of_relPath shown]
  dsimp only
  obtain ⟨inserted, _⟩ := ready.insert ⟨named, direct⟩ (listedKind entry) size
    (entry.mtime.getD settings.defaultMtime) entry.xetHash
    (if listedKind entry = .directory then settings.dirMode
      else settings.fileMode) settings.uid settings.gid now
  obtain ⟨child, found, live, path⟩ := inserted.order.wf.path.mp
    (insert_mapped state.table parent name (childPath listing.dir name)
      (listedKind entry) size (entry.mtime.getD settings.defaultMtime)
      entry.xetHash (if listedKind entry = .directory then settings.dirMode
        else settings.fileMode) settings.uid settings.gid now)
  obtain ⟨_, grows⟩ := inserted.tagListed (state.table.insert parent name
    (childPath listing.dir name) (listedKind entry) size
    (entry.mtime.getD settings.defaultMtime) entry.xetHash
    (if listedKind entry = .directory then settings.dirMode
      else settings.fileMode) settings.uid settings.gid now).1
    (some cipherSize) entry.oid
  obtain ⟨tagged, got, sized⟩ := get_tagListed found cipherSize entry.oid
  obtain ⟨other, gotOther, place, _⟩ := grows _ child found
  obtain rfl := Option.some.inj (got.symm.trans gotOther)
  refine ⟨_, tagged, got, place.fullPath.trans path, place.isLive.trans live, ?_⟩
  rw [sized]
  rfl

/-- Every listed encrypted file knows the size of its ciphertext. -/
theorem sized_of_listed {table : InodeTable} (order : table.InOrder)
    (directory : table.isDirectory parent = true)
    (fits : listing.Fits table parent) {entry : TreeEntry}
    (member : entry ∈ listing.entries) {name : Name}
    (shown : listing.relPath entry = some name) (direct : '/' ∉ name)
    {size cipherSize : Nat}
    (sizes : listedSize settings listing entry = some (size, some cipherSize))
    {child : InodeEntry} (looked : (installEntries settings listing parent now
      table).table.lookupChild parent name = some child) :
    child.cipherSize.isSome = true := by
  obtain ⟨parentEntry, foundParent, isDirectory⟩ :=
    InodeTable.isDirectory_iff.mp directory
  have start : Ready listing parent table :=
    ⟨order, parentEntry, foundParent, isDirectory,
      fits.1 parentEntry foundParent⟩
  obtain ⟨earlier, later, split⟩ := List.append_of_mem member
  have namedEarlier : ∀ other ∈ earlier, ∀ rel ∈ listing.relPath other,
      topName rel ≠ [] := fun other inEarlier => fits.2 other (by
        rw [split]
        exact List.mem_append_left _ inEarlier)
  have namedLater : ∀ other ∈ later, ∀ rel ∈ listing.relPath other,
      topName rel ≠ [] := fun other inLater => fits.2 other (by
        rw [split]
        exact List.mem_append_right _ (List.mem_cons_of_mem _ inLater))
  have named : name ≠ [] := by
    have top := fits.2 entry member name shown
    rwa [topName_of_no_slash direct] at top
  obtain ⟨before, _⟩ := @ready_foldl_installEntry settings listing parent now
    earlier ⟨table, [], []⟩ start namedEarlier
  obtain ⟨ino, brought, got, path, live, sized⟩ := @sized_installDirect settings
    listing parent now _ before entry name named shown direct size cipherSize
    sizes
  obtain ⟨middle, _⟩ := @ready_installEntry settings listing parent now _ before
    entry (fits.2 entry member)
  obtain ⟨last, grows⟩ := @ready_foldl_installEntry settings listing parent now
    later _ middle namedLater
  obtain ⟨other, gotOther, place, _⟩ := grows ino brought got
  obtain ⟨again, gotAgain, still⟩ := @sized_foldl settings listing parent now
    later _ middle namedLater ino brought got
  obtain rfl := Option.some.inj (gotOther.symm.trans gotAgain)
  have whole : (installEntries settings listing parent now table).table =
      (later.foldl (installEntry settings listing parent now)
        (installEntry settings listing parent now
          (earlier.foldl (installEntry settings listing parent now)
            ⟨table, [], []⟩) entry)).table := by
    unfold installEntries
    rw [split, List.foldl_append, List.foldl_cons]
  rw [whole] at looked
  -- The child of the name is the inode at the path of the entry.
  obtain ⟨dirEntry, foundDir, _, isChild⟩ := last.order.wf.lookupChild.mp looked
  obtain ⟨sameDir, foundAgain, _, dirPath⟩ := last.dir
  obtain rfl := Option.some.inj (foundDir.symm.trans foundAgain)
  have mapped := last.order.wf.path.mpr
    ⟨other, gotOther, place.isLive.trans live, place.fullPath.trans path⟩
  have mappedChild := last.order.wf.path.mpr
    ⟨child, isChild.found, isChild.live, isChild.fullPath⟩
  rw [dirPath, mapped] at mappedChild
  have sameIno : ino = child.inode := Option.some.inj mappedChild
  have found : _ = some child := isChild.found
  dsimp only at found
  rw [← sameIno, gotOther] at found
  obtain rfl := Option.some.inj found
  exact still sized

/-! ## Without encryption -/

/-- No inode has a ciphertext. -/
def Plain (table : InodeTable) : Prop :=
  ∀ ino entry, table.get ino = some entry → entry.cipherSize = none

theorem plain_modify {table : InodeTable} (plain : Plain table) (ino : Ino)
    {change : InodeEntry → InodeEntry}
    (same : ∀ entry, (change entry).cipherSize = entry.cipherSize) :
    Plain (table.modify ino change) := by
  intro other entry found
  rw [InodeTable.get_modify] at found
  split at found
  · obtain ⟨old, foundOld, rfl⟩ := Option.map_eq_some_iff.mp found
    exact (same old).trans (plain ino old foundOld)
  · exact plain other entry found

theorem plain_insert {table : InodeTable} (plain : Plain table) (parent : Ino)
    (name : Name) (fullPath : Path) (kind : InodeKind) (size : Nat)
    (mtime : Time) (xetHash : Option Hash) (mode uid gid : Nat) (now : Time) :
    Plain (table.insert parent name fullPath kind size mtime xetHash mode uid
      gid now).2 := by
  unfold InodeTable.insert
  split
  · apply plain_modify plain
    simp
  · apply plain_modify
    · intro ino entry found
      unfold InodeTable.get at found
      dsimp only at found
      by_cases new : ino = table.nextInode
      · rw [new, AList.lookup_insert] at found
        obtain rfl := Option.some.inj found
        rfl
      · rw [AList.lookup_insert_ne new] at found
        exact plain ino entry found
    · intro entry
      rfl

theorem plain_installEntry (notEncrypting : settings.encrypting = false)
    {state : Installing} (plain : Plain state.table) (entry : TreeEntry) :
    Plain (installEntry settings listing parent now state entry).table := by
  unfold installEntry
  split
  · exact plain
  split
  · unfold installNested
    dsimp only
    split
    · exact plain
    · exact plain_insert plain _ _ _ _ _ _ _ _ _ _ _
  · have sizes : listedSize settings listing entry =
        some (entry.size.getD 0, none) := by
      unfold listedSize
      simp [notEncrypting]
    unfold installDirect
    rw [sizes]
    unfold tagListed
    dsimp only [Option.isSome_none]
    rw [if_neg Bool.false_ne_true]
    split
    · apply plain_modify (plain_insert plain _ _ _ _ _ _ _ _ _ _ _)
      simp
    · exact plain_insert plain _ _ _ _ _ _ _ _ _ _ _

theorem plain_installEntries (notEncrypting : settings.encrypting = false)
    {table : InodeTable} (plain : Plain table) :
    Plain (installEntries settings listing parent now table).table := by
  have folded : ∀ (entries : List TreeEntry) (state : Installing),
      Plain state.table → Plain (entries.foldl
        (installEntry settings listing parent now) state).table := by
    intro entries
    induction entries with
    | nil => exact fun _ => id
    | cons entry entries ih =>
        intro state plain
        exact ih _ (plain_installEntry notEncrypting plain entry)
  exact folded listing.entries ⟨table, [], []⟩ plain

end

/-! ## Differences that the next poll or revalidation sees -/

section

variable (settings : ListingSettings) (listing : Listing) (now : Time)

/-- The file has the hash of the entry, and the size that a listing shows for
it, if that is known. -/
structure Reflects (listed : TreeEntry) (child : InodeEntry) : Prop where
  xetHash : child.xetHash = listed.xetHash
  size : ∀ sizes ∈ listedSize settings listing listed, child.size = sizes.1

/-- The next poll of the same remote reports the file, and makes it what the
entry says. -/
def PollRepairs (table : InodeTable) (listed : TreeEntry)
    (child : InodeEntry) : Prop :=
  ∃ update, diffUpdate listing.entries now child = some update ∧
    ∃ after, (applyUpdate table update).get child.inode = some after ∧
      Reflects settings listing listed after

/-- What a revalidation of a cached file reads of it. -/
def revalidationOf (child : InodeEntry) : Revalidation :=
  ⟨child.inode, child.fullPath, child.xetHash, child.etag⟩

/-- The answer to a HEAD request for a listed file. -/
def headOf (listed : TreeEntry) : HeadFileInfo :=
  ⟨listed.xetHash, listed.oid, some (listed.size.getD 0), listed.mtime⟩

/-- The next revalidation, against the same remote, finds the file changed and
makes it what the entry says. -/
def HeadRepairs (table : InodeTable) (listed : TreeEntry)
    (child : InodeEntry) : Prop :=
  (revalidationOf child).changed (headOf listed) = true ∧
    ∃ after, (revalidateFile ⟨false, 0, settings.encrypting⟩ table
        (revalidationOf child) (.found (headOf listed))
        (listed.xetHash.bind listing.plaintextSizes) now).1.get child.inode =
          some after ∧
      Reflects settings listing listed after

end

section

variable {settings : ListingSettings} {listing : Listing} {now : Time}

theorem get_applyUpdate {table : InodeTable} {update : Update}
    {entry : InodeEntry} (found : table.get update.ino = some entry)
    (clean : entry.isDirty = false) :
    ∃ after, (applyUpdate table update).get update.ino = some after ∧
      after.xetHash = update.hash ∧ after.size = update.size := by
  unfold applyUpdate InodeTable.updateRemoteFile
  simp [found, clean, InodeTable.get_modify]

/-- The update for a listed file that differs. -/
theorem diffUpdate_of_listed {child : InodeEntry} {listed : TreeEntry}
    (clean : child.isDirty = false)
    (mapped : remoteMap listing.entries child.fullPath = some listed)
    (differs : contentChanged child listed = true ∨
      listed.size.getD 0 ≠ child.cipherSize.getD child.size) :
    ∃ update, diffUpdate listing.entries now child = some update ∧
      update.ino = child.inode ∧ update.hash = listed.xetHash ∧
      update.size = if child.cipherSize.isSome then child.size
        else listed.size.getD 0 := by
  have reported : (contentChanged child listed ||
      listed.size.getD 0 != child.cipherSize.getD child.size) = true := by
    simpa using differs
  unfold diffUpdate
  rw [mapped, clean]
  simp only [Bool.false_eq_true, if_false, reported, if_true]
  exact ⟨_, rfl, rfl, rfl, rfl⟩

theorem pollRepairs_of {table : InodeTable} {child : InodeEntry}
    {listed : TreeEntry} (found : table.get child.inode = some child)
    (clean : child.isDirty = false)
    (mapped : remoteMap listing.entries child.fullPath = some listed)
    (differs : contentChanged child listed = true ∨
      listed.size.getD 0 ≠ child.cipherSize.getD child.size)
    (sizes : ∀ sizes ∈ listedSize settings listing listed,
      child.cipherSize = none ∧ sizes.1 = listed.size.getD 0) :
    PollRepairs settings listing now table listed child := by
  obtain ⟨update, reported, ino, hash, size⟩ :=
    @diffUpdate_of_listed listing now child listed clean mapped differs
  have foundUpdate : table.get update.ino = some child := by
    rw [ino]
    exact found
  obtain ⟨after, got, afterHash, afterSize⟩ :=
    get_applyUpdate foundUpdate clean
  rw [ino] at got
  refine ⟨update, reported, after, got, afterHash.trans hash, ?_⟩
  intro shown member
  obtain ⟨plain, same⟩ := sizes shown member
  rw [afterSize, size, plain, same]
  rfl

theorem contentChanged_of_hash {child : InodeEntry} {listed : TreeEntry}
    (differs : child.xetHash ≠ listed.xetHash) :
    contentChanged child listed = true := by
  unfold contentChanged
  split <;> rename_i known
  · simpa using Ne.symm differs
  · rw [Bool.or_eq_true, not_or] at known
    obtain ⟨noLocal, noRemote⟩ := known
    simp only [Bool.not_eq_true, Option.isSome_eq_false_iff,
      Option.isNone_iff_eq_none] at noLocal noRemote
    exact absurd (noLocal.trans noRemote.symm) differs

theorem headRepairs_of {table : InodeTable} {child : InodeEntry}
    {listed : TreeEntry} (found : table.get child.inode = some child)
    (clean : child.isDirty = false) (file : listedKind listed = .file)
    (encrypting : settings.encrypting = true) {plaintext : Nat}
    (probed : listed.xetHash.bind listing.plaintextSizes = some plaintext)
    (differs : child.xetHash ≠ listed.xetHash) :
    HeadRepairs settings listing now table listed child := by
  have changed : (revalidationOf child).changed (headOf listed) = true :=
    contentChanged_of_hash differs
  refine ⟨changed, ?_⟩
  unfold revalidateFile
  simp only [changed, if_true, probed]
  simp only [headOf, RevalidateSettings.sizes, encrypting, if_true,
    Option.map_some, Option.bind_some, revalidationOf,
    InodeTable.updateRemoteFile, found, clean, InodeTable.get_modify]
  simp only [Bool.false_eq_true, if_false, InodeTable.get_put, if_true,
    Option.map_some]
  refine ⟨_, rfl, rfl, ?_⟩
  intro shown member
  unfold listedSize at member
  simp only [encrypting, file, probed] at member
  simp only [decide_true, Bool.and_self, if_true, Option.map_some,
    Option.mem_some_iff] at member
  rw [← member]

/-- A clean listed file is what its entry says or is repaired, unless it is an
encrypted one with the hash of the entry and another size. -/
theorem reflects_or_repairs {table : InodeTable} {child : InodeEntry}
    {listed : TreeEntry} (found : table.get child.inode = some child)
    (clean : child.isDirty = false)
    (mapped : remoteMap listing.entries child.fullPath = some listed)
    (file : listedKind listed = .file)
    (plain : settings.encrypting = false → child.cipherSize = none)
    (sized : settings.encrypting = true → child.xetHash = listed.xetHash →
      ∀ sizes ∈ listedSize settings listing listed, child.size = sizes.1) :
    Reflects settings listing listed child ∨
      PollRepairs settings listing now table listed child ∨
      HeadRepairs settings listing now table listed child := by
  cases encrypting : settings.encrypting with
  | false =>
      have noCipher := plain encrypting
      have sizes : listedSize settings listing listed =
          some (listed.size.getD 0, none) := by
        unfold listedSize
        simp [encrypting]
      by_cases same : child.xetHash = listed.xetHash ∧
          child.size = listed.size.getD 0
      · left
        refine ⟨same.1, ?_⟩
        intro shown member
        rw [sizes] at member
        obtain rfl := Option.mem_some_iff.mp member
        exact same.2
      · right
        left
        apply pollRepairs_of found clean mapped
        · by_cases hash : child.xetHash = listed.xetHash
          · right
            rw [noCipher]
            intro size
            exact same ⟨hash, size.symm⟩
          · exact Or.inl (contentChanged_of_hash hash)
        · intro shown member
          rw [sizes] at member
          obtain rfl := Option.mem_some_iff.mp member
          exact ⟨noCipher, rfl⟩
  | true =>
      by_cases hash : child.xetHash = listed.xetHash
      · exact Or.inl ⟨hash, sized encrypting hash⟩
      right
      cases probed : listed.xetHash.bind listing.plaintextSizes with
      | some plaintext =>
          exact Or.inr (headRepairs_of found clean file encrypting probed hash)
      | none =>
          left
          apply pollRepairs_of found clean mapped
            (Or.inl (contentChanged_of_hash hash))
          intro shown member
          unfold listedSize at member
          simp [encrypting, file, probed] at member

/-- An encrypted file with the hash of its entry and another size stays as it
is. -/
theorem size_of_repairs {table : InodeTable} {child : InodeEntry}
    {listed : TreeEntry} (found : table.get child.inode = some child)
    (clean : child.isDirty = false) (file : listedKind listed = .file)
    (encrypting : settings.encrypting = true)
    (sized : child.cipherSize.isSome = true)
    (mapped : remoteMap listing.entries child.fullPath = some listed)
    (hash : child.xetHash = listed.xetHash) {sizes : Nat × Option Nat}
    (shown : sizes ∈ listedSize settings listing listed)
    (seen : Reflects settings listing listed child ∨
      PollRepairs settings listing now table listed child ∨
      HeadRepairs settings listing now table listed child) :
    child.size = sizes.1 := by
  rcases seen with reflects | ⟨update, reported, after, got, reflects⟩ |
    ⟨changed, _⟩
  · exact reflects.size sizes shown
  · have kept : update.ino = child.inode ∧ update.size = child.size := by
      unfold diffUpdate at reported
      rw [mapped, clean] at reported
      simp only [Bool.false_eq_true, if_false, sized, if_true] at reported
      split at reported
      · obtain rfl := Option.some.inj reported
        exact ⟨rfl, rfl⟩
      · cases reported
    have foundUpdate : table.get update.ino = some child := by
      rw [kept.1]
      exact found
    obtain ⟨again, gotAgain, _, size⟩ := get_applyUpdate foundUpdate clean
    rw [kept.1, got] at gotAgain
    obtain rfl := Option.some.inj gotAgain
    rw [← kept.2, ← size]
    exact reflects.size sizes shown
  · have known : listed.xetHash.isSome = true := by
      cases none : listed.xetHash with
      | some hash => rfl
      | none =>
          unfold listedSize at shown
          simp [encrypting, file, none] at shown
    unfold Revalidation.changed revalidationOf headOf at changed
    simp [hash, known] at changed

end

/-! ## What a load shows -/

section

variable (settings : ListingSettings) (listing : Listing) (parent : Ino)
  (now : Time)

/-- Every clean file of the directory that the listing has is what its entry
says, or is repaired next, and every clean and closed child with a listed name
has the kind of what the listing has under it. -/
structure ShowsListing (table : InodeTable) : Prop where
  files : ∀ name child listed, table.lookupChild parent name = some child →
    child.kind = .file → child.isDirty = false →
    remoteMap listing.entries child.fullPath = some listed →
      Reflects settings listing listed child ∨
        PollRepairs settings listing now table listed child ∨
        HeadRepairs settings listing now table listed child
  kinds : ∀ name ∈ listing.names settings, ∀ child,
    table.lookupChild parent name = some child → child.isDirty = false →
    child.hasOpenHandles = false → ∀ entry ∈ listing.entries,
    listing.childName settings entry = some name →
      child.kind = listing.childKind entry

/-- The clean and closed children that the directory has already are of the
kinds that the listing has under their names, it has one kind under each other
name, and an encrypted file with the listed hash has the plaintext size that
was probed for it. -/
structure MeetsListing (table : InodeTable) : Prop where
  sizes : settings.encrypting = true → ∀ name child listed,
    table.lookupChild parent name = some child → child.kind = .file →
    child.isDirty = false →
    remoteMap listing.entries child.fullPath = some listed →
    child.xetHash = listed.xetHash →
    ∀ sizes ∈ listedSize settings listing listed, child.size = sizes.1
  kinds : ∀ name child, table.lookupChild parent name = some child →
    child.isDirty = false → child.hasOpenHandles = false →
    ∀ entry ∈ listing.entries, listing.childName settings entry = some name →
      child.kind = listing.childKind entry
  fresh : ∀ name, table.lookupChild parent name = none →
    ∀ left ∈ listing.entries, listing.childName settings left = some name →
    ∀ right ∈ listing.entries, listing.childName settings right = some name →
      listing.childKind left = listing.childKind right

end

section

variable {settings : ListingSettings} {listing : Listing} {parent : Ino}
  {now : Time}

theorem mem_names {entry : TreeEntry} {name : Name}
    (member : entry ∈ listing.entries)
    (brings : listing.childName settings entry = some name) :
    name ∈ listing.names settings :=
  List.mem_filterMap.mpr ⟨entry, member, brings⟩

/-- The listed entry of a file in the directory brings the file. -/
theorem listed_of_mapped {name : Name} (valid : ValidName name)
    {listed : TreeEntry} (mapped : remoteMap listing.entries
      (childPath listing.dir name) = some listed) :
    listed ∈ listing.entries ∧ listedKind listed = .file ∧
      listing.relPath listed = some name ∧ '/' ∉ name := by
  have member := List.mem_reverse.mp (List.mem_of_find?_eq_some mapped)
  obtain ⟨inEntries, isFile⟩ := List.mem_filter.mp member
  have path : listed.path = childPath listing.dir name := by
    simpa using List.find?_some mapped
  refine ⟨inEntries, ?_, ?_, valid.2⟩
  · have entryType : listed.entryType = .file := by simpa using isFile
    unfold listedKind
    rw [entryType]
    rfl
  · unfold Listing.relPath
    rw [path]
    split <;> rename_i root
    · rw [List.isEmpty_iff.mp root, childPath_nil]
    · apply Hub.strictDescendantRel_eq_some_iff.mpr
      exact ⟨valid.1, childPath_of_ne_nil (by simpa using root) name⟩

theorem childName_of_sized {listed : TreeEntry} {name : Name}
    (shown : listing.relPath listed = some name) (direct : '/' ∉ name)
    {sizes : Nat × Option Nat}
    (sized : sizes ∈ listedSize settings listing listed) :
    listing.childName settings listed = some name := by
  have nested : ¬ name.contains '/' = true := by simpa using direct
  unfold Listing.childName
  rw [shown, Option.bind_some, if_neg nested, Option.mem_def.mp sized]
  rfl

/-- The path of a child of the directory, before or after the load. -/
theorem path_of_child {table : InodeTable} (wf : table.WellFormed)
    (here : ∀ entry ∈ table.get parent, entry.fullPath = listing.dir)
    {name : Name} {child : InodeEntry}
    (looked : table.lookupChild parent name = some child) :
    ValidName name ∧ child.fullPath = childPath listing.dir name ∧
      table.get child.inode = some child := by
  obtain ⟨parentEntry, found, listed, isChild⟩ := wf.lookupChild.mp looked
  obtain ⟨_, _, valid⟩ := wf.directory found listed
  have path := isChild.fullPath
  rw [here parentEntry found] at path
  exact ⟨valid, path, isChild.found⟩

theorem dir_stays {table : InodeTable} (order : table.InOrder)
    (fits : listing.Fits table parent)
    (directory : table.isDirectory parent = true) :
    ∀ entry ∈ (installListing settings listing parent now table).2.get parent,
      entry.fullPath = listing.dir := by
  obtain ⟨parentEntry, found, _⟩ := InodeTable.isDirectory_iff.mp directory
  obtain ⟨other, got, place⟩ := @dir_kept settings listing parent now table
    order fits parentEntry found
  intro entry foundEntry
  obtain rfl := Option.some.inj (got.symm.trans foundEntry)
  exact place.fullPath.trans (fits.1 parentEntry found)

theorem isDirty_of_sameFile {left right : InodeEntry}
    (same : SameFile left right) : right.isDirty = left.isDirty := by
  unfold InodeEntry.isDirty
  rw [same.dirtyGeneration]

theorem hasOpenHandles_of_sameFile {left right : InodeEntry}
    (same : SameFile left right) :
    right.hasOpenHandles = left.hasOpenHandles := by
  unfold InodeEntry.hasOpenHandles
  rw [same.openHandles]

theorem plain_of_listed {table : InodeTable} (order : table.InOrder)
    (directory : table.isDirectory parent = true)
    (unloaded : table.isChildrenLoaded parent = false)
    (fits : listing.Fits table parent)
    (plain : settings.encrypting = false → Plain table) {name : Name}
    (listed : name ∈ listing.names settings) {child : InodeEntry}
    (looked : (installListing settings listing parent now table).2.lookupChild
      parent name = some child)
    (notEncrypting : settings.encrypting = false) :
    child.cipherSize = none := by
  obtain ⟨installed, again, lookedInstalled, lookedAgain, same, _⟩ :=
    @child_of_listed settings listing parent now table order directory unloaded
      fits name listed
  obtain rfl := Option.some.inj (looked.symm.trans lookedAgain)
  obtain ⟨ready, _⟩ := @ready_installEntries settings listing parent now table
    order directory fits
  obtain ⟨_, _, _, isChild⟩ := ready.order.wf.lookupChild.mp lookedInstalled
  rw [same.cipherSize]
  exact plain_installEntries notEncrypting (plain notEncrypting) _ installed
    isChild.found

/-- The size of a listed encrypted file with the hash of its entry, after the
load. -/
theorem size_of_listed {table : InodeTable} (order : table.InOrder)
    (directory : table.isDirectory parent = true)
    (unloaded : table.isChildrenLoaded parent = false)
    (fits : listing.Fits table parent)
    (meets : MeetsListing settings listing parent table)
    {name : Name} (listed : name ∈ listing.names settings) {child : InodeEntry}
    (looked : (installListing settings listing parent now table).2.lookupChild
      parent name = some child)
    (file : child.kind = .file) (clean : child.isDirty = false)
    {entry : TreeEntry}
    (mapped : remoteMap listing.entries child.fullPath = some entry)
    (isFile : listedKind entry = .file)
    (encrypting : settings.encrypting = true)
    (hash : child.xetHash = entry.xetHash) {sizes : Nat × Option Nat}
    (shown : sizes ∈ listedSize settings listing entry) :
    child.size = sizes.1 := by
  obtain ⟨_, again, _, lookedAgain, _, source⟩ := @child_of_listed settings
    listing parent now table order directory unloaded fits name listed
  obtain rfl := Option.some.inj (looked.symm.trans lookedAgain)
  rcases source with ⟨old, lookedOld, place, same⟩ |
    ⟨_, first, _, _, brought⟩
  · rw [same.size]
    apply meets.sizes encrypting name old entry lookedOld
    · exact same.kind.symm.trans file
    · exact (isDirty_of_sameFile same).symm.trans clean
    · rw [← place.fullPath]
      exact mapped
    · exact same.xetHash.symm.trans hash
    · exact shown
  · -- Entries with one hash show one size.
    obtain ⟨hashFirst, sizeFirst⟩ := brought.content file
    have kindFirst : listedKind first = .file := by
      have kind := brought.kind.symm.trans file
      unfold Listing.childKind at kind
      split at kind
      · cases kind
      · exact kind
    have sameHash : first.xetHash = entry.xetHash :=
      hashFirst.symm.trans hash
    unfold listedSize at sizeFirst shown
    simp only [encrypting, kindFirst, isFile, decide_true, Bool.and_self,
      if_true, Option.map_map] at sizeFirst shown
    rw [sameHash] at sizeFirst
    obtain ⟨plaintext, probed, rfl⟩ := Option.map_eq_some_iff.mp shown
    rw [probed] at sizeFirst
    exact (Option.some.inj sizeFirst).symm

theorem showsListing_of_meets {table : InodeTable} (order : table.InOrder)
    (directory : table.isDirectory parent = true)
    (unloaded : table.isChildrenLoaded parent = false)
    (fits : listing.Fits table parent)
    (plain : settings.encrypting = false → Plain table)
    (meets : MeetsListing settings listing parent table) :
    ShowsListing settings listing parent now
      (installListing settings listing parent now table).2 := by
  obtain ⟨orderAfter, _⟩ := @keeps_installListing settings listing parent now
    table order fits
  constructor
  · intro name child listed looked file clean mapped
    obtain ⟨valid, path, found⟩ := path_of_child orderAfter.wf
      (dir_stays order fits directory) looked
    have mappedHere := mapped
    rw [path] at mappedHere
    obtain ⟨member, isFile, shown, direct⟩ :=
      listed_of_mapped valid mappedHere
    have inNames : ∀ sizes ∈ listedSize settings listing listed,
        name ∈ listing.names settings := fun sizes sized =>
      mem_names member (childName_of_sized shown direct sized)
    apply reflects_or_repairs found clean mapped isFile
    · intro notEncrypting
      have sized : (listed.size.getD 0, none) ∈
          listedSize settings listing listed := by
        unfold listedSize
        simp [notEncrypting]
      exact plain_of_listed order directory unloaded fits plain
        (inNames _ sized) looked notEncrypting
    · intro encrypting hash sizes sized
      exact size_of_listed order directory unloaded fits meets
        (inNames sizes sized) looked file clean mapped isFile encrypting hash
        sized
  · intro name listed child looked clean closed entry member brings
    obtain ⟨_, again, _, lookedAgain, _, source⟩ := @child_of_listed settings
      listing parent now table order directory unloaded fits name listed
    obtain rfl := Option.some.inj (looked.symm.trans lookedAgain)
    rcases source with ⟨old, lookedOld, _, same⟩ |
      ⟨missing, first, inEntries, bringsFirst, brought⟩
    · rw [same.kind]
      exact meets.kinds name old lookedOld
        ((isDirty_of_sameFile same).symm.trans clean)
        ((hasOpenHandles_of_sameFile same).symm.trans closed) entry member
        brings
    · exact brought.kind.trans (meets.fresh name missing first inEntries
        bringsFirst entry member brings)

/-- A listed child that was there already is still there. -/
theorem old_of_listed {table : InodeTable} (order : table.InOrder)
    (directory : table.isDirectory parent = true)
    (unloaded : table.isChildrenLoaded parent = false)
    (fits : listing.Fits table parent) {name : Name}
    (listed : name ∈ listing.names settings) {old : InodeEntry}
    (looked : table.lookupChild parent name = some old) :
    ∃ installed child, (installEntries settings listing parent now
        table).table.lookupChild parent name = some installed ∧
      (installListing settings listing parent now table).2.lookupChild parent
        name = some child ∧
      SameObject installed child ∧ old.SamePlace child ∧
      SameFile old child := by
  obtain ⟨installed, child, lookedInstalled, lookedChild, object, source⟩ :=
    @child_of_listed settings listing parent now table order directory unloaded
      fits name listed
  rcases source with ⟨again, lookedAgain, place, same⟩ | ⟨missing, _⟩
  · obtain rfl := Option.some.inj (looked.symm.trans lookedAgain)
    exact ⟨installed, child, lookedInstalled, lookedChild, object, place, same⟩
  · rw [missing] at looked
    cases looked

theorem meetsListing_of_shows {table : InodeTable} (order : table.InOrder)
    (directory : table.isDirectory parent = true)
    (unloaded : table.isChildrenLoaded parent = false)
    (fits : listing.Fits table parent)
    (shows : ShowsListing settings listing parent now
      (installListing settings listing parent now table).2) :
    MeetsListing settings listing parent table := by
  obtain ⟨orderAfter, _⟩ := @keeps_installListing settings listing parent now
    table order fits
  constructor
  · intro encrypting name old listed looked file clean mapped hash sizes sized
    obtain ⟨valid, path, _⟩ := path_of_child order.wf fits.1 looked
    have mappedHere := mapped
    rw [path] at mappedHere
    obtain ⟨member, isFile, shown, direct⟩ :=
      listed_of_mapped valid mappedHere
    have brings := childName_of_sized shown direct sized
    obtain ⟨installed, child, lookedInstalled, lookedChild, object, place,
      same⟩ := @old_of_listed settings listing parent now table order directory
        unloaded fits name (mem_names member brings) old looked
    obtain ⟨_, _, found⟩ := path_of_child orderAfter.wf
      (dir_stays order fits directory) lookedChild
    have mappedChild :
        remoteMap listing.entries child.fullPath = some listed := by
      rw [place.fullPath]
      exact mapped
    have cleanChild : child.isDirty = false :=
      (isDirty_of_sameFile same).trans clean
    obtain ⟨plaintext, cipher⟩ := sizes
    have isSome : cipher.isSome = true := by
      have shownSize := Option.mem_def.mp sized
      unfold listedSize at shownSize
      simp only [encrypting, isFile, decide_true, Bool.and_self,
        if_true] at shownSize
      obtain ⟨_, _, same⟩ := Option.map_eq_some_iff.mp shownSize
      rw [← (Prod.mk.inj same).2]
      rfl
    obtain ⟨cipherSize, rfl⟩ := Option.isSome_iff_exists.mp isSome
    have sizedChild : child.cipherSize.isSome = true := by
      rw [object.cipherSize]
      exact sized_of_listed order directory fits member shown direct sized
        lookedInstalled
    rw [← same.size]
    exact size_of_repairs found cleanChild isFile encrypting sizedChild
      mappedChild (same.xetHash.trans hash) sized
      (shows.files name child listed lookedChild (same.kind.trans file)
        cleanChild mappedChild)
  · intro name old looked clean closed entry member brings
    have listed := mem_names member brings
    obtain ⟨_, child, _, lookedChild, _, _, same⟩ := @old_of_listed settings
      listing parent now table order directory unloaded fits name listed old
      looked
    rw [← same.kind]
    exact shows.kinds name listed child lookedChild
      ((isDirty_of_sameFile same).trans clean)
      ((hasOpenHandles_of_sameFile same).trans closed) entry member brings
  · intro name missing left inLeft bringsLeft right inRight bringsRight
    have listed := mem_names inLeft bringsLeft
    obtain ⟨_, child, _, looked, _, source⟩ := @child_of_listed settings
      listing parent now table order directory unloaded fits name listed
    rcases source with ⟨_, lookedOld, _⟩ | ⟨_, _, _, _, brought⟩
    · rw [missing] at lookedOld
      cases lookedOld
    have kind : ∀ entry ∈ listing.entries,
        listing.childName settings entry = some name →
        child.kind = listing.childKind entry :=
      shows.kinds name listed child looked brought.clean brought.closed
    rw [← kind left inLeft bringsLeft]
    exact kind right inRight bringsRight

/-- What a load shows is what its listing says, or is repaired next, if and
only if the table met the listing before. -/
theorem showsListing_iff {table : InodeTable} (order : table.InOrder)
    (directory : table.isDirectory parent = true)
    (unloaded : table.isChildrenLoaded parent = false)
    (fits : listing.Fits table parent)
    (plain : settings.encrypting = false → Plain table) :
    ShowsListing settings listing parent now
        (installListing settings listing parent now table).2 ↔
      MeetsListing settings listing parent table :=
  ⟨meetsListing_of_shows order directory unloaded fits,
    showsListing_of_meets order directory unloaded fits plain⟩

/-! ## A name that changed its kind -/

/-- A listing of the root with one entry. -/
def oneListed (entryType : EntryType) (hash : Hash) : Listing :=
  ⟨[], [⟨['a'], entryType, some 9, some hash, none, none⟩], fun _ => some 5⟩

def encryptedMount : ListingSettings := ⟨true, 0, 493, 420, 0, 0⟩

/-- The file is loaded, and the root is invalidated. -/
def oneFile : InodeTable :=
  (installListing encryptedMount (oneListed .file ['h']) rootInode 1
    .new).2.invalidateChildren rootInode

theorem inOrder_oneFile : oneFile.InOrder := by
  have loaded := (@keeps_installListing encryptedMount (oneListed .file ['h'])
    rootInode 1 .new InodeTable.inOrder_new (by decide)).1
  unfold oneFile InodeTable.invalidateChildren
  apply loaded.update
  intro entry
  exact .of_fields rfl

theorem showsListing_iff_other_hash :
    ShowsListing encryptedMount (oneListed .file ['k']) rootInode 2
        (installListing encryptedMount (oneListed .file ['k']) rootInode 2
          oneFile).2 ↔
      MeetsListing encryptedMount (oneListed .file ['k']) rootInode oneFile :=
  showsListing_iff inOrder_oneFile (by decide) (by decide) (by decide)
    fun plain => by cases plain

/-- The file of a name that is now a directory stays a file. -/
theorem not_showsListing : ¬ ∀ (settings : ListingSettings)
    (listing : Listing) (parent : Ino) (now : Time) (table : InodeTable),
    table.InOrder → table.isDirectory parent = true →
    table.isChildrenLoaded parent = false → listing.Fits table parent →
    (settings.encrypting = false → Plain table) →
    ShowsListing settings listing parent now
      (installListing settings listing parent now table).2 := by
  intro claim
  have shows := claim encryptedMount (oneListed .directory ['k']) rootInode 2
    oneFile inOrder_oneFile (by decide) (by decide) (by decide)
    fun plain => by cases plain
  have kind := shows.kinds ['a'] (by decide) _
    (Option.some_get (by decide)).symm (by decide) (by decide) _
    List.mem_cons_self (by decide)
  revert kind
  decide

end

end HfMount.Vfs
