import HfMount.Vfs.ListedChildren
import HfMount.Vfs.LookupCalls
import HfMount.Vfs.NameCalls

/-!
# Guarded removals

A load removes the children that its listing lacks, and a lookup removes a
directory that the remote has replaced.  Both look for something dirty or open
in the subtree first.  In a well-formed table the guard sees exactly what is
in the subtree, and the removal takes out exactly that.
-/

namespace HfMount.Vfs

open SlashPath Inode Poll

/-- One removal of a sweep, with the loops of its guard and of `remove`. -/
def removeStaleLoop (fuel : Nat) (table : InodeTable) (ino : Ino) :
    Option InodeTable :=
  (table.dirtyOrOpenLoop fuel ino).bind fun busy =>
    if busy then some table
    else (table.removeLoop fuel ino).map (·.2)

/-- At or below a child whose name was not seen and that has nothing dirty or
open at or below it. -/
def Stale (table : InodeTable) (parent : Ino) (seen : List Name) (ino : Ino) :
    Prop :=
  ∃ parentEntry child, table.get parent = some parentEntry ∧
    child ∈ parentEntry.children ∧ child.name ∉ seen ∧
    table.Below child.ino ino ∧ ¬ table.BusyBelow child.ino

/-- Stale once the entries of the listing are in the table of a directory that
was not loaded. -/
def Outdated (settings : ListingSettings) (listing : Listing) (parent : Ino)
    (now : Time) (table : InodeTable) (ino : Ino) : Prop :=
  table.isDirectory parent = true ∧ table.isChildrenLoaded parent = false ∧
    Stale (installEntries settings listing parent now table).table parent
      (listing.names settings) ino

/-- At or below a child that the remote has replaced by a file, with nothing
dirty or open at or below it. -/
def Replaced (settings : ListingSettings) (call : LookupCall)
    (head : HeadFileInfo) (probed : Option Nat) (table : InodeTable)
    (ino : Ino) : Prop :=
  (headSize settings head probed).isSome ∧
    ∃ existing, table.lookupChild call.parent call.name = some existing ∧
      existing.kind ≠ .file ∧ table.Below existing.inode ino ∧
      ¬ table.BusyBelow existing.inode

/-- The doomed are gone and the others keep their content; nothing that is
dirty or open is doomed. -/
structure Evicts (before after : InodeTable) (doomed : Ino → Prop) : Prop
    extends Swept SameFile before after doomed where
  idle : ∀ {ino entry}, before.get ino = some entry → entry.isBusy = true →
    ¬ doomed ino

/-- The guards and the removals of a table, with loops of at most `fuel`
visits. -/
structure GuardsSubtrees (table : InodeTable) (fuel : Nat) : Prop where
  dirtyOrOpen : ∀ ino,
    table.dirtyOrOpenLoop fuel ino =
        some (table.hasDirtyOrOpenDescendants ino) ∧
      (table.hasDirtyOrOpenDescendants ino = true ↔ table.BusyBelow ino)
  clean : ∀ ino,
    table.cleanLoop fuel ino = some (table.hasCleanDescendants ino) ∧
      (table.hasCleanDescendants ino = true ↔ table.CleanBelow ino)
  removal : ∀ {parent parentEntry child},
    table.get parent = some parentEntry → child ∈ parentEntry.children →
    table.removeLoop fuel child.ino =
        some (table.get child.ino, table.remove child.ino) ∧
      table.TakesOut (table.remove child.ino) parent child.ino
  sweep : ∀ parent seen, ∃ after,
    (staleChildren table parent seen).foldlM (removeStaleLoop fuel) table =
        some after ∧
      (staleChildren table parent seen).foldl removeStale table = after ∧
      Evicts table after (Stale table parent seen)
  listing : ∀ settings listing parent now,
    Evicts table (installListing settings listing parent now table).2
      (Outdated settings listing parent now table)
  listingSweep : ∀ settings listing parent now seen {visits},
    table.isDirectory parent = true →
    (installEntries settings listing parent now table).table.values.length ≤
      visits →
    (staleChildren (installEntries settings listing parent now table).table
        parent seen).foldlM (removeStaleLoop visits)
        (installEntries settings listing parent now table).table =
      some ((staleChildren
        (installEntries settings listing parent now table).table parent
          seen).foldl removeStale
        (installEntries settings listing parent now table).table)
  head : ∀ settings call head probed now,
    Evicts table (insertFileFromHead settings table call head probed now)
      (Replaced settings call head probed table)

/-! ## Sweeps -/

section

variable {table : InodeTable}

theorem removeStaleLoop_eq (tree : table.Treelike) {parent child : Ino}
    (listed : table.Lists parent child) {fuel : Nat}
    (enough : table.values.length ≤ fuel) :
    removeStaleLoop fuel table child = some (removeStale table child) := by
  obtain ⟨parentEntry, name, found, inChildren⟩ := id listed
  obtain ⟨entry, foundChild, rfl, _⟩ := tree.child found inChildren
  unfold removeStaleLoop removeStale
  rw [tree.dirtyOrOpenLoop_eq (InodeTable.length_values_pos found) child enough,
    Option.bind_some, tree.removeLoop_eq foundChild listed enough]
  split <;> rfl

theorem foldlM_removeStaleLoop {stale : List Ino} (tree : table.Treelike)
    {parent : Ino} (sweeps : Sweeps table parent stale) {fuel : Nat}
    (enough : table.values.length ≤ fuel) :
    stale.foldlM (removeStaleLoop fuel) table =
      some (stale.foldl removeStale table) := by
  induction stale generalizing table with
  | nil => rfl
  | cons first rest ih =>
      have one := removeStaleLoop_eq tree
        (sweeps.children first List.mem_cons_self) enough
      have shorter : (removeStale table first).values.length ≤
          table.values.length := by
        apply InodeTable.length_values_le
        intro ino entry got
        unfold removeStale at got
        split at got
        · exact ⟨entry, got⟩
        · obtain ⟨old, foundOld, _⟩ := (shrunk_remove table first).entry got
          exact ⟨old, foundOld⟩
      have others := ih (treelike_removeStale tree sweeps)
        (sweeps.removeStale tree).1 (shorter.trans enough)
      rw [List.foldlM_cons, one, List.foldl_cons]
      exact others

/-- A child whose name was not seen is swept when it matters: otherwise it is
dirty itself. -/
theorem swept_staleChildren (tree : table.Treelike) (parent : Ino)
    (seen : List Name) :
    Swept SameInode table
      ((staleChildren table parent seen).foldl removeStale table)
      (Stale table parent seen) := by
  obtain ⟨sweeps, unseen⟩ := sweeps_staleChildren tree parent seen
  apply (swept_removeStale tree sweeps).congr
  intro ino
  constructor
  · rintro ⟨parentEntry, child, found, listed, notSeen, below, idle⟩
    refine ⟨child.ino, ?_, below, idle⟩
    obtain ⟨entry, foundChild, _⟩ := tree.child found listed
    have clean : entry.isDirty = false := by
      by_contra dirty
      apply idle
      refine ⟨child.ino, entry, .refl, foundChild, ?_⟩
      exact Bool.or_eq_true_iff.mpr (Or.inl (Bool.of_not_eq_false dirty))
    unfold staleChildren
    rw [found]
    refine List.mem_map.mpr ⟨child, List.mem_filter.mpr ⟨listed, ?_⟩, rfl⟩
    simp [notSeen, foundChild, clean]
  · rintro ⟨child, member, below, idle⟩
    obtain ⟨entry, name, found, listed, notSeen⟩ := unseen child member
    exact ⟨entry, ⟨child, name⟩, found, listed, notSeen, below, idle⟩

/-- What is stale has a number that was given out. -/
theorem given_of_stale (tree : table.Treelike) {parent : Ino}
    {seen : List Name} {ino : Ino} (stale : Stale table parent seen ino) :
    ino < table.nextInode := by
  obtain ⟨parentEntry, child, found, listed, _, below, _⟩ := stale
  obtain ⟨entry, foundChild, _⟩ := tree.child found listed
  obtain ⟨lower, foundLower⟩ := tree.below foundChild below
  exact tree.given foundLower

theorem not_stale_of_busy {ino : Ino} {entry : InodeEntry} {parent : Ino}
    {seen : List Name} (found : table.get ino = some entry)
    (busy : entry.isBusy = true) : ¬ Stale table parent seen ino := by
  rintro ⟨_, _, _, _, _, below, idle⟩
  exact idle ⟨ino, entry, below, found, busy⟩

end

/-! ## Loads and lookups -/

section

variable {table : InodeTable}

theorem evicts_refl (table : InodeTable) {doomed : Ino → Prop}
    (nothing : ∀ ino, ¬ doomed ino) : Evicts table table doomed := by
  refine ⟨(Swept.refl SameFile.refl table).congr fun ino => ?_, ?_⟩
  · exact iff_false_intro (nothing ino)
  · exact fun _ _ => nothing _

theorem swept_installs {parent : Ino} {before after : InodeTable}
    (leafy : before.Leafy) (installs : Installs parent before after) :
    Swept SameFile before after fun _ => False := by
  refine ⟨False.elim, ?_, ?_, installs.ages.nextInode⟩
  · intro ino _ entry found
    exact installs.kept (leafy.bounded found) entry found
  · intro ino missing given
    cases got : after.get ino with
    | none => rfl
    | some other =>
        obtain ⟨entry, found, _⟩ := installs.ages.kind given got
        rw [missing] at found
        cases found

theorem swept_modify (ino : Ino) {change : InodeEntry → InodeEntry}
    (changed : ∀ entry, SameFile entry (change entry)) :
    Swept SameFile table (table.modify ino change) fun _ => False := by
  refine ⟨False.elim, fun {other} _ => ?_, ?_,
    (InodeTable.nextInode_modify _ _ _).ge⟩
  · exact kept_modify .refl table ino changed other
  · intro other missing _
    rw [InodeTable.get_modify]
    split <;> rename_i here
    · rw [← here, missing]
      rfl
    · exact missing

/-- Only an unloaded directory takes a listing. -/
theorem installListing_skipped {settings : ListingSettings} {listing : Listing}
    {parent : Ino} {now : Time}
    (skipped : ¬ (table.isDirectory parent = true ∧
      table.isChildrenLoaded parent = false)) :
    (installListing settings listing parent now table).2 = table := by
  unfold installListing
  split <;> rename_i found
  · rfl
  rename_i entry
  split <;> rename_i loaded
  · rfl
  split <;> rename_i directory
  · rfl
  · refine absurd ⟨?_, ?_⟩ skipped
    · exact InodeTable.isDirectory_iff.mpr ⟨entry, found, not_not.mp directory⟩
    · unfold InodeTable.isChildrenLoaded
      rw [found]
      simpa using loaded

/-- What a listing brings are leaves, whatever their names and paths are. -/
theorem treelike_installEntries (wf : table.WellFormed)
    (settings : ListingSettings) (listing : Listing) {parent : Ino} (now : Time)
    (directory : table.isDirectory parent = true) :
    (installEntries settings listing parent now table).table.Treelike := by
  have expandable : table.Expandable parent := by
    refine ⟨wf.treelike, directory, ?_⟩
    intro upper upperEntry name parentEntry found listed foundParent
    obtain ⟨entry, isChild⟩ := wf.child found listed
    obtain rfl := Option.some.inj (isChild.found.symm.trans foundParent)
    rw [isChild.fullPath]
    exact length_lt_childPath (wf.directory found listed).2.2 _
  refine InodeTable.Expandable.tree (@keeps_installEntries settings listing parent now
    (·.Expandable parent) ?_ ?_ table expandable)
  · intro current expandable name fullPath kind size mtime xetHash mode uid gid
    exact expandable.insert name fullPath kind size mtime xetHash mode uid gid
      now
  · intro current expandable ino cipherSize oid
    exact expandable.similar (similar_tagListed current ino cipherSize oid)

theorem evicts_installListing (wf : table.WellFormed)
    (settings : ListingSettings) (listing : Listing) (parent : Ino)
    (now : Time) :
    Evicts table (installListing settings listing parent now table).2
      (Outdated settings listing parent now table) := by
  by_cases takes : table.isDirectory parent = true ∧
      table.isChildrenLoaded parent = false
  swap
  · rw [installListing_skipped takes]
    exact evicts_refl table fun ino outdated =>
      takes ⟨outdated.1, outdated.2.1⟩
  obtain ⟨directory, unloaded⟩ := takes
  obtain ⟨entry, found, isDirectory⟩ :=
    InodeTable.isDirectory_iff.mp directory
  have notLoaded : entry.childrenLoaded = false := by
    unfold InodeTable.isChildrenLoaded at unloaded
    rwa [found] at unloaded
  have names : ∀ name,
      name ∈ (installEntries settings listing parent now table).seenNames ++
          (installEntries settings listing parent now table).seenDirs ↔
        name ∈ listing.names settings := fun _ => mem_seen_installEntries
  rw [installListing_eq found isDirectory notLoaded]
  generalize (installEntries settings listing parent now table).seenNames ++
    (installEntries settings listing parent now table).seenDirs = seen
    at names ⊢
  have grown := swept_installs wf.leafy
    (installs_entries settings listing now wf.leafy directory)
  have tree := treelike_installEntries wf settings listing now directory
  have swept := (swept_staleChildren tree parent seen).mono
    fun same => same.2.toSameFile
  have loaded := @swept_modify
    ((staleChildren (installEntries settings listing parent now
        table).table parent seen).foldl removeStale
      (installEntries settings listing parent now table).table) parent
    (fun entry =>
      { entry with
        childrenLoadedAt := some now
        childrenFromRemote := true })
    fun _ => ⟨⟨rfl, rfl, rfl, rfl⟩, rfl⟩
  have sameStale : ∀ ino, Outdated settings listing parent now table ino ↔
      Stale (installEntries settings listing parent now table).table parent
        seen ino := by
    intro ino
    unfold Outdated Stale
    simp only [directory, unloaded, true_and, names]
  refine ⟨(grown.trans .trans (swept.trans .trans loaded
    (given_of_stale tree)) False.elim).congr fun ino => ?_, ?_⟩
  · rw [sameStale ino, or_false, false_or]
  · -- What is dirty or open before the entries of the listing come still is.
    intro ino entry found busy outdated
    obtain ⟨other, got, same⟩ := grown.kept not_false entry found
    rw [← busy_of_sameFile same] at busy
    exact not_stale_of_busy got busy ((sameStale ino).mp outdated)

/-- The new file takes a new number, or that of the path. -/
theorem swept_insertFoundFile (wf : table.WellFormed)
    (settings : ListingSettings) (call : LookupCall) (head : HeadFileInfo)
    (sizes : Nat × Option Nat) (now : Time)
    (directory : table.isDirectory call.parent = true) :
    Swept SameFile table
      (insertFoundFile settings table call head sizes now)
      fun _ => False := by
  have inserted := Installs.insert wf.leafy directory call.name call.fullPath
    .file sizes.1 (head.lastModified.getD settings.defaultMtime) head.xetHash
    settings.fileMode settings.uid settings.gid now
  exact swept_installs wf.leafy (inserted.trans
    (installs_tagListed inserted.leafy inserted.directory _ sizes.2 head.etag))

theorem evicts_insertFileFromHead (wf : table.WellFormed)
    (settings : ListingSettings) (call : LookupCall) (head : HeadFileInfo)
    (probed : Option Nat) (now : Time) :
    Evicts table (insertFileFromHead settings table call head probed now)
      (Replaced settings call head probed table) := by
  have idle : ∀ {ino entry}, table.get ino = some entry →
      entry.isBusy = true →
      ¬ Replaced settings call head probed table ino := by
    rintro ino entry found busy ⟨_, existing, _, _, below, notBusy⟩
    exact notBusy ⟨ino, entry, below, found, busy⟩
  refine ⟨?_, idle⟩
  have unchanged : (∀ ino, ¬ Replaced settings call head probed table ino) →
      Swept SameFile table table (Replaced settings call head probed table) :=
    fun nothing => (evicts_refl table nothing).toSwept
  unfold insertFileFromHead
  split <;> rename_i sized
  · apply unchanged
    rintro ino ⟨isSome, _⟩
    rw [sized] at isSome
    cases isSome
  rename_i sizes
  split <;> rename_i directory
  · apply unchanged
    rintro ino ⟨_, existing, looked, _⟩
    obtain ⟨parentEntry, found, listed, _⟩ := wf.lookupChild.mp looked
    have isDirectory := InodeTable.isDirectory_iff.mpr
      ⟨parentEntry, found, (wf.directory found listed).1⟩
    simp [isDirectory] at directory
  have isDirectory : table.isDirectory call.parent = true := by
    simpa using directory
  split <;> rename_i looked
  · apply (swept_insertFoundFile wf settings call head sizes now
      isDirectory).congr
    intro ino
    refine iff_false_intro ?_
    rintro ⟨_, existing, lookedAgain, _⟩
    rw [looked] at lookedAgain
    cases lookedAgain
  rename_i existing
  split <;> rename_i kind
  · apply unchanged
    rintro ino ⟨_, again, lookedAgain, notFile, _⟩
    obtain rfl := Option.some.inj (looked.symm.trans lookedAgain)
    exact notFile kind
  split <;> rename_i busy
  · apply unchanged
    rintro ino ⟨_, again, lookedAgain, _, _, notBusy⟩
    obtain rfl := Option.some.inj (looked.symm.trans lookedAgain)
    exact notBusy (wf.treelike.hasDirtyOrOpenDescendants_iff.mp busy)
  -- The directory goes before the file comes.
  obtain ⟨parentEntry, found, listed, isChild⟩ := wf.lookupChild.mp looked
  have attached : table.Lists call.parent existing.inode :=
    ⟨parentEntry, call.name, found, listed⟩
  have removed := (swept_remove wf.treelike attached).mono
    fun same => same.2.toSameFile
  have inserted := swept_insertFoundFile
    (wellFormed_remove_child wf found listed) settings call head sizes now
    (isDirectory_remove_child wf.treelike attached)
  refine (removed.trans .trans inserted ?_).congr ?_
  · intro ino below
    obtain ⟨lower, foundLower⟩ := wf.treelike.below isChild.found below
    exact wf.treelike.given foundLower
  · intro ino
    rw [or_false]
    constructor
    · rintro ⟨_, again, lookedAgain, _, below, _⟩
      obtain rfl := Option.some.inj (looked.symm.trans lookedAgain)
      exact below
    · intro below
      exact ⟨by simp [sized], existing, looked, kind, below,
        mt wf.treelike.hasDirtyOrOpenDescendants_iff.mpr busy⟩

end

/-- The loops of a well-formed table end within as many visits as there are
inodes, the guards are right about every subtree, and no removal loses
anything dirty or open. -/
theorem subtreeGuards_exact {table : InodeTable} (wf : table.WellFormed)
    {fuel : Nat} (enough : table.values.length ≤ fuel) :
    GuardsSubtrees table fuel := by
  have tree := wf.treelike
  obtain ⟨root, foundRoot, _⟩ := wf.root
  have inhabited := InodeTable.length_values_pos foundRoot
  constructor
  · exact fun ino => ⟨tree.dirtyOrOpenLoop_eq inhabited ino enough,
      tree.hasDirtyOrOpenDescendants_iff⟩
  · exact fun ino => ⟨tree.cleanLoop_eq inhabited ino enough,
      tree.any_tail_descendants_iff⟩
  · intro parent parentEntry child found listed
    obtain ⟨entry, isChild⟩ := wf.child found listed
    obtain rfl := isChild.parent
    refine ⟨?_, wf.takesOut found listed⟩
    rw [isChild.found]
    exact tree.removeLoop_eq isChild.found
      ⟨parentEntry, child.name, found, listed⟩ enough
  · intro parent seen
    refine ⟨_, foldlM_removeStaleLoop tree
      (sweeps_staleChildren tree parent seen).1 enough, rfl, ?_⟩
    refine ⟨(swept_staleChildren tree parent seen).mono
      fun same => same.2.toSameFile, ?_⟩
    exact fun found busy => not_stale_of_busy found busy
  · exact evicts_installListing wf
  · intro settings listing parent now seen visits directory enough
    have grown := treelike_installEntries wf settings listing now directory
    exact foldlM_removeStaleLoop grown
      (sweeps_staleChildren grown parent seen).1 enough
  · exact evicts_insertFileFromHead wf

/-- A table with the directory `d`, which holds the file `a`. -/
def nestedFile : InodeTable :=
  ((InodeTable.new.insert rootInode ['d'] (childPath [] ['d']) .directory 0 0
    none 493 0 0 0).2.insert 2 ['a'] (childPath ['d'] ['a']) .file 0 0 none 420
      0 0 0).2

theorem wellFormed_nestedFile : nestedFile.WellFormed := by
  have root : InodeTable.new.get rootInode = some InodeTable.rootEntry := rfl
  have first := InodeTable.wellFormed_new.insert root rfl
    (show ValidName ['d'] by decide) rfl .directory 0 0 none 493 0 0 0
  have inside : (InodeTable.new.insert rootInode ['d'] (childPath [] ['d'])
      .directory 0 0 none 493 0 0 0).2.get 2 = some (InodeEntry.new 2 rootInode
        ['d'] (childPath [] ['d']) .directory 0 0 none 493 0 0 0 0) := rfl
  exact first.insert inside rfl (show ValidName ['a'] by decide) rfl .file 0 0
    none 420 0 0 0

theorem subtreeGuards_exact_nestedFile :
    GuardsSubtrees nestedFile 3 ∧
      nestedFile.dirtyOrOpenLoop 3 2 = some false ∧
      nestedFile.cleanLoop 3 2 = some true :=
  ⟨subtreeGuards_exact wellFormed_nestedFile (by decide), by decide, by decide⟩

end HfMount.Vfs
