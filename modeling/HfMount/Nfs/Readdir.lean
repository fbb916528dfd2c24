import HfMount.Inode.BatchEviction
import HfMount.Lib.CursorPaging
import HfMount.Lib.Utf8
import HfMount.Vfs.Readdir

/-!
# `READDIR` over NFS

The cookie of an entry is its inode number.  The adapter looks for it from the
start of the listing and goes on behind the first entry that has it.  The root
directory is its own parent, so its first two entries have one cookie.
-/

namespace HfMount.Nfs

open SlashPath Inode Utf8

structure VfsAttr where
  ino : Ino
  size : Nat
  blocks : Nat
  mtime : Time
  atime : Time
  ctime : Time
  kind : InodeKind
  perm : Nat
  nlink : Nat
  uid : Nat
  gid : Nat
  deriving DecidableEq

def blockSize : Nat := 512

def makeVfsAttr (readOnly : Bool) (entry : InodeEntry) : VfsAttr :=
  let perm :=
    if readOnly then match entry.kind with
      | .file => 0o444
      | .directory => 0o555
      | .symlink => 0o777
    else match entry.kind with
      | .symlink => 0o777
      | _ => entry.mode
  { ino := entry.inode
    size := entry.size
    blocks := (entry.size + blockSize - 1) / blockSize
    mtime := entry.mtime
    atime := entry.atime
    ctime := entry.ctime
    kind := entry.kind
    perm
    nlink := entry.nlink
    uid := entry.uid
    gid := entry.gid }

/-- `fattr3`, without the fields that are always zero. -/
structure Fattr where
  ftype : InodeKind
  mode : Nat
  nlink : Nat
  uid : Nat
  gid : Nat
  size : Nat
  used : Nat
  fileid : Ino
  atime : Time
  mtime : Time
  ctime : Time
  deriving DecidableEq

def vfsAttrToNfs (attr : VfsAttr) : Fattr :=
  { ftype := attr.kind
    mode := attr.perm
    nlink := attr.nlink
    uid := attr.uid
    gid := attr.gid
    size := attr.size
    used := attr.blocks * 512
    fileid := attr.ino
    atime := attr.atime
    mtime := attr.mtime
    ctime := attr.ctime }

/-- An entry of a page; `none` are the attributes that `unwrap_or_default`
makes up. -/
structure NfsDirEntry where
  fileid : Ino
  name : Bytes
  attr : Option Fattr
  deriving DecidableEq

structure ReadDirResult where
  entries : List NfsDirEntry
  atEnd : Bool

def nfsDirEntry (readOnly : Bool) (table : InodeTable) (entry : DirEntry) :
    NfsDirEntry :=
  { fileid := entry.ino
    name := utf8 entry.name
    attr := (table.get entry.ino).map fun inode =>
      vfsAttrToNfs (makeVfsAttr readOnly inode) }

/-- `NFSAdapter::readdir`; `none` is an error. -/
def readdir (readOnly : Bool) (table : InodeTable) (dirid startAfter : Ino)
    (maxEntries : Nat) : Option ReadDirResult :=
  (table.readdir dirid).map fun entries =>
    let skip :=
      if 0 < startAfter then
        match entries.findIdx? (·.ino == startAfter) with
        | some place => place + 1
        | none => 0
      else 0
    let page := ((entries.drop skip).take maxEntries).map
      (nfsDirEntry readOnly table)
    { entries := page
      atEnd := decide (entries.length ≤ skip + page.length) }

/-- A client that asks for page after page, with the number of the last entry
it was given; `none` if there is an error or `fuel` pages are not enough. -/
def readPages (readOnly : Bool) (table : InodeTable) (dirid : Ino)
    (maxEntries : Nat) : Nat → Ino → Option (List NfsDirEntry)
  | 0, _ => none
  | fuel + 1, cookie => do
      let result ← readdir readOnly table dirid cookie maxEntries
      if result.atEnd then some result.entries
      else
        let later ← readPages readOnly table dirid maxEntries fuel
          (result.entries.getLast?.elim cookie (·.fileid))
        some (result.entries ++ later)

section

variable {readOnly : Bool} {table : InodeTable} {dir : Ino}
  {entry : InodeEntry} {entries : List DirEntry}

theorem readdir_eq_page (listed : table.readdir dir = some entries)
    (cookie size : Nat) :
    readdir readOnly table dir cookie size = some
      { entries := (CursorPaging.page (·.ino) entries size cookie).1.map
          (nfsDirEntry readOnly table)
        atEnd := (CursorPaging.page (·.ino) entries size cookie).2 } := by
  unfold readdir CursorPaging.page
  rw [listed]
  exact congrArg (fun count => some (ReadDirResult.mk _
      (decide (entries.length ≤
        CursorPaging.skip (·.ino) entries cookie + count))))
    (List.length_map (nfsDirEntry readOnly table))

theorem readPages_eq_readAll (listed : table.readdir dir = some entries)
    (size fuel : Nat) :
    ∀ cookie : Ino, readPages readOnly table dir size fuel cookie =
      (CursorPaging.readAll (·.ino) entries size fuel cookie).map
        (·.map (nfsDirEntry readOnly table)) := by
  induction fuel with
  | zero =>
      intro cookie
      rfl
  | succ fuel ih =>
      intro cookie
      unfold readPages CursorPaging.readAll
      rw [readdir_eq_page listed]
      simp only [Option.bind_eq_bind, Option.bind_some]
      split
      · rfl
      · have last : ((CursorPaging.page (·.ino) entries size cookie).1.map
              (nfsDirEntry readOnly table)).getLast?.elim cookie (·.fileid) =
            (CursorPaging.page (·.ino) entries size cookie).1.getLast?.elim
              cookie (·.ino) := by
          rw [List.getLast?_map]
          cases (CursorPaging.page (·.ino) entries size cookie).1.getLast? <;>
            rfl
        rw [last, ih]
        cases CursorPaging.readAll (·.ino) entries size fuel _ with
        | none => rfl
        | some later => simp

/-- The pages end, and together they are the listing, each entry once. -/
def PagesComplete (readOnly : Bool) (table : InodeTable) (dir : Ino)
    (size : Nat) : Prop :=
  ∃ entries fuel read, table.readdir dir = some entries ∧
    readPages readOnly table dir size fuel 0 = some read ∧
    read.Perm (entries.map (nfsDirEntry readOnly table))

theorem pagesComplete_iff_boundaries {size : Nat}
    (listed : table.readdir dir = some entries) (positive : 0 < size)
    (keys : ∀ entry ∈ entries, 0 < entry.ino) :
    PagesComplete readOnly table dir size ↔
      CursorPaging.Boundaries (·.ino) entries size 0 := by
  constructor
  · rintro ⟨again, fuel, read, listedAgain, done, same⟩
    rw [listed] at listedAgain
    obtain rfl := Option.some.inj listedAgain
    rw [readPages_eq_readAll listed] at done
    obtain ⟨plain, pages, rfl⟩ := Option.map_eq_some_iff.mp done
    have counted := CursorPaging.left_le_length_readAll positive keys fuel pages
    have length := same.length_eq
    rw [List.length_map, List.length_map] at length
    rw [CursorPaging.skip_zero] at counted
    exact counted.2 (by omega)
  · intro boundaries
    obtain ⟨fuel, read, done, same⟩ :=
      (CursorPaging.readAll_iff positive keys).mpr boundaries
    refine ⟨entries, fuel, read.map (nfsDirEntry readOnly table), listed, ?_,
      same.map _⟩
    rw [readPages_eq_readAll listed, done]
    rfl

/-- The entries after the first have numbers of their own. -/
theorem nodup_tail (wf : table.WellFormed) (numbered : table.Numbered)
    (found : table.get dir = some entry) :
    ((({ ino := entry.parent, kind := .directory, name := ['.', '.'] } :
        DirEntry) :: table.childEntries entry.children).map (·.ino)).Nodup := by
  rw [List.map_cons, List.nodup_cons]
  refine ⟨?_, InodeTable.nodup_childEntries wf found⟩
  intro member
  obtain ⟨child, listed, same⟩ := List.mem_map.mp member
  exact (InodeTable.child_ne wf numbered found listed).2.1 same

/-- The listing of a directory. -/
def listing (table : InodeTable) (dir : Ino) (entry : InodeEntry) :
    List DirEntry :=
  { ino := dir, kind := .directory, name := ['.'] } ::
    { ino := entry.parent, kind := .directory, name := ['.', '.'] } ::
      table.childEntries entry.children

theorem readdir_eq_listing (found : table.get dir = some entry) :
    table.readdir dir = some (listing table dir entry) := by
  unfold InodeTable.readdir
  rw [found]
  rfl

theorem pos_of_mem_listing (wf : table.WellFormed) (numbered : table.Numbered)
    (found : table.get dir = some entry)
    (directory : entry.kind = .directory) :
    ∀ item ∈ listing table dir entry, 0 < item.ino := by
  intro item member
  rcases List.mem_cons.mp member with rfl | member
  · apply Nat.pos_of_ne_zero
    rintro rfl
    rw [numbered.zero] at found
    cases found
  rcases List.mem_cons.mp member with rfl | member
  · exact InodeTable.parent_pos wf numbered found directory
  · exact (InodeTable.child_ne wf numbered found member).2.2

theorem boundaries_listing_iff (wf : table.WellFormed)
    (numbered : table.Numbered) (found : table.get dir = some entry)
    (directory : entry.kind = .directory) {size : Nat} (positive : 0 < size) :
    CursorPaging.Boundaries (·.ino) (listing table dir entry) size 0 ↔
      dir ≠ rootInode ∨ 3 ≤ size ∨ entry.children = [] := by
  have tail := nodup_tail wf numbered found
  have count : (table.childEntries entry.children).length =
      entry.children.length := by
    have same := congrArg List.length (InodeTable.childEntries_eq wf found)
    simpa using same
  unfold listing
  constructor
  · intro boundaries
    by_contra bad
    obtain ⟨isRoot, small, some'⟩ : dir = rootInode ∧ size < 3 ∧
        entry.children ≠ [] := by
      simpa using bad
    -- A page ends behind the two entries that share the number of the root.
    obtain ⟨times, more, ends⟩ : ∃ times, 0 < times ∧ times * size = 2 := by
      obtain rfl | rfl : size = 1 ∨ size = 2 := by omega
      · exact ⟨2, by decide, rfl⟩
      · exact ⟨1, by decide, rfl⟩
    have children := List.length_pos_of_ne_nil some'
    have first := boundaries times more (by
      simp only [List.length_cons, count]
      omega)
    rw [ends] at first
    have apart := (CursorPaging.firstAt_cons.mp first).2 _ rfl
    subst isRoot
    exact apart (numbered.root found).symm
  · intro good times some' inside
    simp only [List.length_cons, count] at inside
    generalize place : 0 + times * size - 1 = here
    cases here with
    | zero => exact .head _
    | succ here =>
        apply CursorPaging.firstAt_cons.mpr
        constructor
        · apply CursorPaging.firstAt_of_nodup tail
          simp only [List.length_cons, count]
          omega
        · intro item at' same
          cases here with
          | zero =>
              obtain rfl := Option.some.inj at'
              rcases good with notRoot | large | none
              · exact InodeTable.parent_ne wf found directory notRoot same.symm
              · have least := Nat.le_mul_of_pos_left size some'
                omega
              · rw [none, List.length_nil] at inside
                omega
          | succ here =>
              rw [List.getElem?_cons_succ] at at'
              have member := List.mem_of_getElem? at'
              exact (InodeTable.child_ne wf numbered found member).1 same.symm

/-- Paging is complete for every directory but the root, and for the root
unless a page ends between its first three entries. -/
theorem pagesComplete_iff (wf : table.WellFormed) (numbered : table.Numbered)
    (found : table.get dir = some entry) (directory : entry.kind = .directory)
    {size : Nat} (positive : 0 < size) :
    PagesComplete readOnly table dir size ↔
      dir ≠ rootInode ∨ 3 ≤ size ∨ entry.children = [] := by
  rw [pagesComplete_iff_boundaries (readdir_eq_listing found) positive
    (pos_of_mem_listing wf numbered found directory)]
  exact boundaries_listing_iff wf numbered found directory positive

end

theorem numbered_twoCandidates : InodeTable.twoCandidates.Numbered := by
  constructor
  · rfl
  · intro entry found
    have root : InodeTable.twoCandidates.get rootInode =
        some (InodeTable.grownParent (InodeTable.grownParent
          InodeTable.rootEntry 2 ['a'] .file) 3 ['b'] .file) := rfl
    rw [root] at found
    obtain rfl := Option.some.inj found
    rfl

theorem pagesComplete_iff_twoCandidates :
    PagesComplete false InodeTable.twoCandidates rootInode 3 ↔
      rootInode ≠ rootInode ∨ 3 ≤ 3 ∨
        (InodeTable.grownParent (InodeTable.grownParent
          InodeTable.rootEntry 2 ['a'] .file) 3 ['b'] .file).children = [] :=
  pagesComplete_iff InodeTable.wellFormed_twoCandidates numbered_twoCandidates
    rfl rfl (by decide)

/-- With pages of one entry the listing of the root does not end, and with
pages of two the parent comes twice. -/
theorem pages_of_root_incomplete :
    ¬ PagesComplete false InodeTable.twoCandidates rootInode 1 ∧
      (readPages false InodeTable.twoCandidates rootInode 2 3 0).map
        (·.map (·.fileid)) = some [1, 1, 1, 2, 3] := by
  constructor
  · have found : InodeTable.twoCandidates.get rootInode =
        some (InodeTable.grownParent (InodeTable.grownParent
          InodeTable.rootEntry 2 ['a'] .file) 3 ['b'] .file) := rfl
    rw [pagesComplete_iff_boundaries (readdir_eq_listing found) (by decide)
        (pos_of_mem_listing InodeTable.wellFormed_twoCandidates
          numbered_twoCandidates found rfl),
      boundaries_listing_iff InodeTable.wellFormed_twoCandidates
        numbered_twoCandidates found rfl (by decide)]
    simp [InodeTable.grownParent, InodeEntry.addChild]
  · decide

end HfMount.Nfs
