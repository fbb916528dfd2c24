import HfMount.Poll.Follow
import HfMount.Vfs.Revalidate

/-!
# Loading the children of a directory

A directory is listed when it is first visited.  The listing is installed in
the table that the other operations have left in the meantime: what is new is
inserted, and a clean child that the listing lacks is removed with everything
below it, unless something there is dirty or open.
-/

namespace HfMount.Vfs

open SlashPath Inode Poll

/-- What a mount gives to the entries of a listing. -/
structure ListingSettings where
  encrypting : Bool
  defaultMtime : Time
  dirMode : Nat
  fileMode : Nat
  uid : Nat
  gid : Nat

/-- The answer to a listing, with the plaintext sizes that were probed for it
by hash. -/
structure Listing where
  dir : Path
  entries : List TreeEntry
  plaintextSizes : Hash → Option Nat

/-- The path of an entry, relative to the directory that was listed. -/
def Listing.relPath (listing : Listing) (entry : TreeEntry) : Option Path :=
  if listing.dir.isEmpty then some entry.path
  else strictDescendantRel entry.path listing.dir

def listedKind (entry : TreeEntry) : InodeKind :=
  if entry.entryType = .directory then .directory else .file

/-- The visible size of a listed entry and the size of its ciphertext; an
encrypted file whose header could not be probed has none. -/
def listedSize (settings : ListingSettings) (listing : Listing)
    (entry : TreeEntry) : Option (Nat × Option Nat) :=
  if settings.encrypting && listedKind entry = .file then
    (entry.xetHash.bind listing.plaintextSizes).map fun plaintext =>
      (plaintext, some (entry.size.getD 0))
  else some (entry.size.getD 0, none)

/-- A listed inode gets the size of its ciphertext and its object id. -/
def tagListed (table : InodeTable) (ino : Ino) (cipherSize : Option Nat)
    (oid : Option Hash) : InodeTable :=
  let sized := if cipherSize.isSome then
      table.modify ino fun entry => { entry with cipherSize }
    else table
  if oid.isSome then sized.modify ino fun entry => { entry with etag := oid }
  else sized

/-- The table while a listing is installed, and the names seen so far. -/
structure Installing where
  table : InodeTable
  seenDirs : List Name
  seenNames : List Name

section

variable (settings : ListingSettings) (listing : Listing) (parent : Ino)
  (now : Time)

/-- A nested path makes the directory that it starts with, once. -/
def installNested (state : Installing) (rel : Path) : Installing :=
  let dirName := rel.takeWhile (· ≠ '/')
  if state.seenDirs.contains dirName then state
  else
    { state with
      table := (state.table.insert parent dirName
        (childPath listing.dir dirName) .directory 0 settings.defaultMtime none
        settings.dirMode settings.uid settings.gid now).2
      seenDirs := state.seenDirs ++ [dirName] }

def installDirect (state : Installing) (entry : TreeEntry) (rel : Path) :
    Installing :=
  match listedSize settings listing entry with
  | none => state
  | some (size, cipherSize) =>
      let kind := listedKind entry
      let mode := if kind = .directory then settings.dirMode
        else settings.fileMode
      let inserted := state.table.insert parent rel entry.path kind size
        (entry.mtime.getD settings.defaultMtime) entry.xetHash mode settings.uid
        settings.gid now
      { state with
        table := tagListed inserted.2 inserted.1 cipherSize entry.oid
        seenNames := state.seenNames ++ [rel] }

def installEntry (state : Installing) (entry : TreeEntry) : Installing :=
  match listing.relPath entry with
  | none => state
  | some rel =>
      if rel.contains '/' then
        installNested settings listing parent now state rel
      else installDirect settings listing parent now state entry rel

def installEntries (table : InodeTable) : Installing :=
  listing.entries.foldl (installEntry settings listing parent now)
    { table
      seenDirs := []
      seenNames := [] }

end

/-- The clean children of a directory that have none of the names. -/
def staleChildren (table : InodeTable) (parent : Ino) (seen : List Name) :
    List Ino :=
  match table.get parent with
  | none => []
  | some entry =>
      (entry.children.filter fun child =>
        !seen.contains child.name &&
          (table.get child.ino).any (!·.isDirty)).map (·.ino)

def removeStale (table : InodeTable) (ino : Ino) : InodeTable :=
  if table.hasDirtyOrOpenDescendants ino then table else table.remove ino

/-- What `ensureChildrenLoaded` does with the listing; the flag says whether it
installed it. -/
def installListing (settings : ListingSettings) (listing : Listing)
    (parent : Ino) (now : Time) (table : InodeTable) :
    Except Errno Bool × InodeTable :=
  match table.get parent with
  | none => (.error .enoent, table)
  | some entry =>
      if entry.childrenLoaded then (.ok false, table)
      else if entry.kind ≠ .directory then (.error .enotdir, table)
      else
        let installed := installEntries settings listing parent now table
        let stale := staleChildren installed.table parent
          (installed.seenNames ++ installed.seenDirs)
        let pruned := stale.foldl removeStale installed.table
        (.ok true, pruned.modify parent fun e =>
          { e with
            childrenLoadedAt := some now
            childrenFromRemote := true })

/-! ## What a load keeps -/

/-- The inode is still there, with an entry related to the one it had. -/
def Kept (same : InodeEntry → InodeEntry → Prop) (before after : InodeTable)
    (ino : Ino) : Prop :=
  ∀ entry, before.get ino = some entry →
    ∃ other, after.get ino = some other ∧ same entry other

theorem Kept.trans {same : InodeEntry → InodeEntry → Prop}
    (comp : ∀ {first second third : InodeEntry}, same first second →
      same second third → same first third)
    {first second third : InodeTable} {ino : Ino}
    (left : Kept same first second ino) (right : Kept same second third ino) :
    Kept same first third ino := by
  intro entry found
  obtain ⟨middle, foundMiddle, sameLeft⟩ := left entry found
  obtain ⟨last, foundLast, sameRight⟩ := right middle foundMiddle
  exact ⟨last, foundLast, comp sameLeft sameRight⟩

theorem Kept.mono {strong weak : InodeEntry → InodeEntry → Prop}
    {before after : InodeTable} {ino : Ino}
    (kept : Kept strong before after ino)
    (weaken : ∀ {left right : InodeEntry}, strong left right →
      weak left right) : Kept weak before after ino := by
  intro entry found
  obtain ⟨other, got, same⟩ := kept entry found
  exact ⟨other, got, weaken same⟩

theorem kept_modify {same : InodeEntry → InodeEntry → Prop}
    (refl : ∀ entry, same entry entry) (table : InodeTable) (ino : Ino)
    {change : InodeEntry → InodeEntry}
    (changed : ∀ entry, same entry (change entry)) (other : Ino) :
    Kept same table (table.modify ino change) other := by
  intro entry found
  rw [InodeTable.get_modify]
  split <;> rename_i here
  · rw [← here, found]
    exact ⟨change entry, rfl, changed entry⟩
  · exact ⟨entry, found, refl entry⟩

/-- The content metadata and the kind of an inode. -/
structure SameFile (left right : InodeEntry) : Prop
    extends SameMetadata left right where
  kind : right.kind = left.kind

theorem SameFile.refl (entry : InodeEntry) : SameFile entry entry :=
  ⟨.refl entry, rfl⟩

theorem SameFile.trans {first second third : InodeEntry}
    (left : SameFile first second) (right : SameFile second third) :
    SameFile first third :=
  ⟨⟨right.size.trans left.size, right.xetHash.trans left.xetHash,
    right.dirtyGeneration.trans left.dirtyGeneration,
    right.openHandles.trans left.openHandles⟩, right.kind.trans left.kind⟩

/-- The same file with the same remote object behind it. -/
structure SameObject (left right : InodeEntry) : Prop
    extends SameFile left right where
  cipherSize : right.cipherSize = left.cipherSize
  etag : right.etag = left.etag

theorem SameObject.refl (entry : InodeEntry) : SameObject entry entry :=
  ⟨.refl entry, rfl, rfl⟩

theorem SameObject.trans {first second third : InodeEntry}
    (left : SameObject first second) (right : SameObject second third) :
    SameObject first third :=
  ⟨left.toSameFile.trans right.toSameFile,
    right.cipherSize.trans left.cipherSize, right.etag.trans left.etag⟩

theorem kept_insert {table : InodeTable} {ino : Ino}
    (old : ino < table.nextInode) (parent : Ino) (name : Name)
    (fullPath : Path) (kind : InodeKind) (size : Nat) (mtime : Time)
    (xetHash : Option Hash) (mode uid gid : Nat) (now : Time) :
    Kept SameObject table (table.insert parent name fullPath kind size mtime
      xetHash mode uid gid now).2 ino := by
  unfold InodeTable.insert
  split
  · exact kept_modify .refl _ _
      (fun _ => ⟨⟨⟨rfl, rfl, rfl, rfl⟩, rfl⟩, rfl, rfl⟩) ino
  · dsimp only
    refine Kept.trans .trans ?_ (kept_modify .refl _ _
      (fun _ => ⟨⟨⟨rfl, rfl, rfl, rfl⟩, rfl⟩, rfl, rfl⟩) ino)
    intro entry found
    refine ⟨entry, ?_, .refl entry⟩
    exact (AList.lookup_insert_ne (Nat.ne_of_lt old)).trans found

/-- What the installation of a listing keeps, entry by entry. -/
structure Installs (parent : Ino) (before after : InodeTable) : Prop where
  leafy : after.Leafy
  ages : before.Ages after
  directory : after.isDirectory parent = true
  kept : ∀ {ino}, ino < before.nextInode → Kept SameFile before after ino

theorem Installs.refl {parent : Ino} {table : InodeTable}
    (leafy : table.Leafy) (directory : table.isDirectory parent = true) :
    Installs parent table table :=
  ⟨leafy, .refl table, directory, fun _ entry found =>
    ⟨entry, found, .refl entry⟩⟩

theorem Installs.trans {parent : Ino} {first second third : InodeTable}
    (left : Installs parent first second)
    (right : Installs parent second third) : Installs parent first third :=
  ⟨right.leafy, left.ages.trans right.ages, right.directory, fun old =>
    (left.kept old).trans .trans
      (right.kept (Nat.lt_of_lt_of_le old left.ages.nextInode))⟩

theorem Installs.insert {parent : Ino} {table : InodeTable}
    (leafy : table.Leafy) (directory : table.isDirectory parent = true)
    (name : Name) (fullPath : Path) (kind : InodeKind) (size : Nat)
    (mtime : Time) (xetHash : Option Hash) (mode uid gid : Nat) (now : Time) :
    Installs parent table (table.insert parent name fullPath kind size mtime
      xetHash mode uid gid now).2 := by
  obtain ⟨entry, found, isDirectory⟩ :=
    InodeTable.isDirectory_iff.mp directory
  obtain ⟨insertedLeafy, ages⟩ := leafy.insert found isDirectory kind size mtime
    xetHash mode uid gid now
  have kept : ∀ {ino}, ino < table.nextInode → Kept SameFile table
      (table.insert parent name fullPath kind size mtime xetHash mode uid gid
        now).2 ino := fun old =>
    (kept_insert old parent name fullPath kind size mtime xetHash mode uid gid
      now).mono fun same => same.toSameFile
  obtain ⟨other, got, same⟩ := kept (leafy.bounded found) entry found
  exact ⟨insertedLeafy, ages, InodeTable.isDirectory_iff.mpr
    ⟨other, got, same.kind.trans isDirectory⟩, kept⟩

/-- A change of fields that are neither content nor children. -/
theorem Installs.modify {parent : Ino} {table : InodeTable}
    (leafy : table.Leafy) (directory : table.isDirectory parent = true)
    (ino : Ino) {change : InodeEntry → InodeEntry}
    (same : ∀ entry, SameFile entry (change entry))
    (inode : ∀ entry, (change entry).inode = entry.inode)
    (children : ∀ entry, (change entry).children = entry.children) :
    Installs parent table (table.modify ino change) := by
  obtain ⟨modifiedLeafy, ages⟩ := (InodeTable.tapers_fields table ino
    (fun entry => ⟨inode entry, (same entry).kind⟩) children).leafy leafy
  have kept : ∀ other, Kept SameFile table (table.modify ino change) other :=
    kept_modify .refl table ino same
  obtain ⟨entry, found, isDirectory⟩ :=
    InodeTable.isDirectory_iff.mp directory
  obtain ⟨other, got, sameFile⟩ := kept parent entry found
  exact ⟨modifiedLeafy, ages, InodeTable.isDirectory_iff.mpr
    ⟨other, got, sameFile.kind.trans isDirectory⟩, fun {ino} _ => kept ino⟩

theorem installs_tagListed {parent : Ino} {table : InodeTable}
    (leafy : table.Leafy) (directory : table.isDirectory parent = true)
    (ino : Ino) (cipherSize : Option Nat) (oid : Option Hash) :
    Installs parent table (tagListed table ino cipherSize oid) := by
  have sized : Installs parent table (if cipherSize.isSome then
      table.modify ino fun entry => { entry with cipherSize } else table) := by
    split
    · exact .modify leafy directory ino (fun _ => ⟨⟨rfl, rfl, rfl, rfl⟩, rfl⟩)
        (fun _ => rfl) fun _ => rfl
    · exact .refl leafy directory
  unfold tagListed
  dsimp only
  split
  · exact sized.trans (.modify sized.leafy sized.directory ino
      (fun _ => ⟨⟨rfl, rfl, rfl, rfl⟩, rfl⟩) (fun _ => rfl) fun _ => rfl)
  · exact sized

theorem similar_tagListed (table : InodeTable) (ino : Ino)
    (cipherSize : Option Nat) (oid : Option Hash) :
    table.Similar (tagListed table ino cipherSize oid) := by
  have sized : table.Similar (if cipherSize.isSome then
      table.modify ino fun entry => { entry with cipherSize } else table) := by
    split
    · exact InodeTable.similar_modify table ino fun _ => .of_fields rfl
    · exact .refl table
  unfold tagListed
  dsimp only
  split
  · exact sized.trans
      (InodeTable.similar_modify _ ino fun _ => .of_fields rfl)
  · exact sized

section

variable (settings : ListingSettings) (listing : Listing) {parent : Ino}
  (now : Time)

/-- The entries of a listing only insert in the directory and tag what they
have inserted. -/
theorem keeps_installEntries {keeps : InodeTable → Prop}
    (insert : ∀ {table}, keeps table → ∀ name fullPath kind size mtime xetHash
      mode uid gid, keeps (table.insert parent name fullPath kind size mtime
        xetHash mode uid gid now).2)
    (tag : ∀ {table}, keeps table → ∀ ino cipherSize oid,
      keeps (tagListed table ino cipherSize oid))
    {table : InodeTable} (start : keeps table) :
    keeps (installEntries settings listing parent now table).table := by
  have one : ∀ {state : Installing}, keeps state.table → ∀ entry,
      keeps (installEntry settings listing parent now state entry).table := by
    intro state kept entry
    unfold installEntry
    split
    · exact kept
    split
    · unfold installNested
      dsimp only
      split
      · exact kept
      · exact insert kept _ _ _ _ _ _ _ _ _
    · unfold installDirect
      split
      · exact kept
      · exact tag (insert kept _ _ _ _ _ _ _ _ _) _ _ _
  have folded : ∀ (entries : List TreeEntry) {state : Installing},
      keeps state.table → keeps (entries.foldl
        (installEntry settings listing parent now) state).table := by
    intro entries
    induction entries with
    | nil => exact id
    | cons entry entries ih => exact fun kept => ih (one kept entry)
  exact folded listing.entries start

theorem installs_entries {table : InodeTable} (leafy : table.Leafy)
    (directory : table.isDirectory parent = true) :
    Installs parent table
      (installEntries settings listing parent now table).table := by
  apply keeps_installEntries
  · intro current installs name fullPath kind size mtime xetHash mode uid gid
    exact installs.trans (.insert installs.leafy installs.directory name
      fullPath kind size mtime xetHash mode uid gid now)
  · intro current installs ino cipherSize oid
    exact installs.trans (installs_tagListed installs.leafy installs.directory
      ino cipherSize oid)
  · exact .refl leafy directory

end

/-! ## Removing what is stale -/

/-- The removals of a load, one after the other, spare the inode: it is not
under a stale child, or something dirty or open is under it too. -/
def Spares (ino : Ino) : InodeTable → List Ino → Prop
  | _, [] => True
  | table, stale :: rest =>
      (table.hasDirtyOrOpenDescendants stale = true ∨
          ino ∉ table.descendants (table.depthBound + 1) stale) ∧
        Spares ino (removeStale table stale) rest

instance decidableSpares (ino : Ino) : ∀ (table : InodeTable)
    (stale : List Ino), Decidable (Spares ino table stale)
  | _, [] => isTrue trivial
  | table, stale :: rest =>
      have := decidableSpares ino (removeStale table stale) rest
      inferInstanceAs (Decidable (_ ∧ _))

theorem tapers_removeStale (table : InodeTable) (ino : Ino) :
    table.Tapers (removeStale table ino) := by
  unfold removeStale
  split
  · exact .refl table
  · exact InodeTable.tapers_remove table ino

/-- The load removes nothing that has the inode under it. -/
def ListingSpares (settings : ListingSettings) (listing : Listing)
    (parent : Ino) (now : Time) (table : InodeTable) (ino : Ino) : Prop :=
  table.isDirectory parent = true → table.isChildrenLoaded parent = false →
    Spares ino (installEntries settings listing parent now table).table
      (staleChildren (installEntries settings listing parent now table).table
        parent
        ((installEntries settings listing parent now table).seenNames ++
          (installEntries settings listing parent now table).seenDirs))

instance (settings : ListingSettings) (listing : Listing) (parent : Ino)
    (now : Time) (table : InodeTable) (ino : Ino) :
    Decidable (ListingSpares settings listing parent now table ino) :=
  inferInstanceAs (Decidable (_ → _ → _))

theorem installListing_cases (settings : ListingSettings) (listing : Listing)
    (parent : Ino) (now : Time) (table : InodeTable) :
    (installListing settings listing parent now table).2 = table ∨
      table.isDirectory parent = true ∧
      table.isChildrenLoaded parent = false ∧
      ∃ change : InodeEntry → InodeEntry,
        (∀ entry, SameFile entry (change entry)) ∧
        (∀ entry, (change entry).inode = entry.inode ∧
          (change entry).children = entry.children) ∧
        (installListing settings listing parent now table).2 =
          ((staleChildren
            (installEntries settings listing parent now table).table parent
            ((installEntries settings listing parent now table).seenNames ++
              (installEntries settings listing parent now table).seenDirs)).foldl
              removeStale
            (installEntries settings listing parent now table).table).modify
              parent change := by
  unfold installListing
  split <;> rename_i found
  · exact Or.inl rfl
  rename_i entry
  split <;> rename_i loaded
  · exact Or.inl rfl
  split <;> rename_i directory
  · exact Or.inl rfl
  · refine Or.inr ⟨?_, ?_, _, ?_, ?_, rfl⟩
    · exact InodeTable.isDirectory_iff.mpr ⟨entry, found, not_not.mp directory⟩
    · unfold InodeTable.isChildrenLoaded
      rw [found]
      simpa using loaded
    · exact fun _ => ⟨⟨rfl, rfl, rfl, rfl⟩, rfl⟩
    · exact fun _ => ⟨rfl, rfl⟩

theorem leafy_installListing (settings : ListingSettings) (listing : Listing)
    (parent : Ino) (now : Time) {table : InodeTable} (leafy : table.Leafy) :
    (installListing settings listing parent now table).2.Leafy ∧
      table.Ages (installListing settings listing parent now table).2 := by
  rcases installListing_cases settings listing parent now table with
    same | ⟨directory, _, change, same, fields, installed⟩
  · rw [same]
    exact ⟨leafy, .refl table⟩
  · rw [installed]
    have installs := installs_entries settings listing now leafy directory
    obtain ⟨finalLeafy, ages⟩ := (((InodeTable.tapers_foldl tapers_removeStale _
      _).trans (InodeTable.tapers_fields _ parent
        (fun entry => ⟨(fields entry).1, (same entry).kind⟩)
        fun entry => (fields entry).2))).leafy installs.leafy
    exact ⟨finalLeafy, installs.ages.trans ages⟩

end HfMount.Vfs
