import HfMount.Vfs.Listing

/-!
# Old views of the remote

A poll, a load of a directory and a revalidation ask the remote and apply the
answer later, to a table in which files may have been committed in between.  A
commit makes its file clean, and clean files are what the three of them change:
the file keeps what was committed when the answer agrees with it.
-/

namespace HfMount.Vfs

open SlashPath Inode Poll Transition

/-! ## A poll with an older snapshot -/

/-- The diff of a poll between the listing and a snapshot of the files, applied
to the table; the table is released after the snapshot. -/
def applyPollSnapshot (snapshot : List InodeEntry)
    (remoteEntries : List TreeEntry) (polledPrefixes : List Path) (now : Time)
    (table : InodeTable) : InodeTable :=
  let updated := (updates remoteEntries now snapshot).foldl applyUpdate table
  let pruned :=
    removeAll now (deletions remoteEntries polledPrefixes snapshot) updated
  (dirsToInvalidate pruned (remoteEntries.map (·.path))).foldl
    (fun current dir => current.invalidateChildren dir.1) pruned

/-- A poll whose snapshot is that of the table itself. -/
theorem applyPollDiff_eq (remoteEntries : List TreeEntry)
    (polledPrefixes : List Path) (now : Time) (state : PollState) :
    (applyPollDiff remoteEntries polledPrefixes now state).table =
      applyPollSnapshot state.table.fileSnapshot remoteEntries polledPrefixes
        now state.table := by
  have updating : ∀ (changes : List Update) (current : PollState),
      (changes.foldl
        (fun (current : PollState) update =>
          let table := applyUpdate current.table update
          { current with
            table
            invalidated :=
              current.invalidated ++ [queueFileInvalidation table update.ino] })
        current).table = changes.foldl applyUpdate current.table := by
    intro changes
    induction changes with
    | nil => exact fun current => rfl
    | cons change changes ih => exact fun current => ih _
  have removing : ∀ (inos : List Ino) (current : PollState),
      (inos.foldl
        (fun (current : PollState) ino =>
          let removed := removeRemoteFile current.table ino now
          { current with
            table := removed.2.1
            invalidated := current.invalidated ++ removed.2.2 })
        current).table = removeAll now inos current.table := by
    intro inos
    induction inos with
    | nil => exact fun current => rfl
    | cons ino inos ih => exact fun current => ih _
  unfold applyPollDiff applyPollSnapshot
  simp only [removing, updating]

/-- The listing shows the file as the snapshot did, or as it is now, or does
not cover its directory. -/
def ListingAgrees (remoteEntries : List TreeEntry) (polledPrefixes : List Path)
    (seen current : InodeEntry) : Prop :=
  seen.isDirty = true ∨
    match remoteMap remoteEntries seen.fullPath with
    | none => parentPath seen.fullPath ∉ polledPrefixes
    | some remote =>
        contentChanged seen remote = false ∧
            remote.size.getD 0 = seen.cipherSize.getD seen.size ∨
          remote.xetHash = current.xetHash ∧
            (if seen.cipherSize.isSome then seen.size
              else remote.size.getD 0) = current.size

instance (remoteEntries : List TreeEntry) (polledPrefixes : List Path)
    (seen current : InodeEntry) :
    Decidable (ListingAgrees remoteEntries polledPrefixes seen current) := by
  unfold ListingAgrees
  cases remoteMap remoteEntries seen.fullPath <;> infer_instance

/-- The metadata of a file and its number of links. -/
structure SameLinked (left right : InodeEntry) : Prop
    extends SameFile left right where
  nlink : right.nlink = left.nlink

theorem SameLinked.refl (entry : InodeEntry) : SameLinked entry entry :=
  ⟨.refl entry, rfl⟩

theorem SameLinked.trans {first second third : InodeEntry}
    (left : SameLinked first second) (right : SameLinked second third) :
    SameLinked first third :=
  ⟨left.toSameFile.trans right.toSameFile, right.nlink.trans left.nlink⟩

theorem tapers_applyUpdate (table : InodeTable) (update : Update) :
    table.Tapers (applyUpdate table update) := by
  unfold applyUpdate InodeTable.updateRemoteFile
  cases found : table.get update.ino with
  | none => exact .refl table
  | some entry =>
      dsimp only
      by_cases dirty : entry.isDirty = true
      · rw [if_pos dirty]
        exact .refl table
      · rw [if_neg dirty]
        have updated := InodeTable.tapers_put found (⟨rfl, rfl⟩ :
          entry.SameIdentity
            { entry with
              xetHash := update.hash
              etag := update.etag
              size := update.size
              cipherSize := update.cipherSize
              mtime := update.mtime
              stagingIsCurrent := false }) fun _ leaf => leaf
        exact updated.trans (InodeTable.tapers_fields _ update.ino
          (fun _ => ⟨rfl, rfl⟩) fun _ => rfl)

/-- The answer is no 404, and shows the file as the lookup found it or as it is
now. -/
def HeadAgrees (settings : RevalidateSettings) (call : Revalidation)
    (answer : HeadAnswer) (probed : Option Nat) (current : InodeEntry) :
    Prop :=
  match answer with
  | .failed => True
  | .missing => False
  | .found head =>
      call.changed head = true →
        ∀ sizes ∈ head.size.bind (settings.sizes probed),
          head.xetHash = current.xetHash ∧ sizes.1 = current.size

instance (settings : RevalidateSettings) (call : Revalidation)
    (answer : HeadAnswer) (probed : Option Nat) (current : InodeEntry) :
    Decidable (HeadAgrees settings call answer probed current) := by
  cases answer <;> unfold HeadAgrees <;> infer_instance

/-- What was read for a request to the remote, and then its answer. -/
inductive Observation where
  | polled (entries : List TreeEntry) (prefixes : List Path)
  | compared (entries : List TreeEntry) (prefixes : List Path)
      (snapshot : List InodeEntry)
  | loading (parent : Ino) (dir : Path)
  | listed (parent : Ino) (listing : Listing)
  | called (call : Revalidation)
  | answered (call : Revalidation) (answer : HeadAnswer) (probed : Option Nat)

/-- The files that were committed since the answer was made. -/
structure View where
  observation : Observation
  commits : List Ino

structure MountSettings where
  revalidate : RevalidateSettings
  listing : ListingSettings

structure StaleViews where
  table : InodeTable
  views : Nat → Option View

inductive StaleViewEvent where
  | other (op : TableOp)
  | commit (ino : Ino) (hash : Hash) (size generation : Nat) (now : Time)
  /-- The remote has answered the listings of a poll. -/
  | polled (id : Nat) (entries : List TreeEntry) (prefixes : List Path)
  | snapshot (id : Nat)
  | load (id : Nat) (parent : Ino)
  | listed (id : Nat) (entries : List TreeEntry)
      (plaintextSizes : Hash → Option Nat)
  | lookup (id : Nat) (parent : Ino) (name : Name)
  | answered (id : Nat) (answer : HeadAnswer) (probed : Option Nat)
  | apply (id : Nat) (now : Time)

/-- The commit finds the dirty generation that it has uploaded. -/
def commitLands (table : InodeTable) (ino : Ino) (generation : Nat) : Bool :=
  (table.get ino).any fun entry =>
    entry.kind = .file && entry.isDirty &&
      entry.dirtyGeneration == generation

def View.committed (view : View) (ino : Ino) : View :=
  { view with commits := ino :: view.commits }

/-- The answer of the view is applied to the table. -/
def Observation.apply (settings : MountSettings) (table : InodeTable)
    (now : Time) : Observation → Option InodeTable
  | .compared entries prefixes snapshot =>
      some (applyPollSnapshot snapshot entries prefixes now table)
  | .listed parent listing =>
      some (installListing settings.listing listing parent now table).2
  | .answered call answer probed =>
      some (revalidateFile settings.revalidate table call answer probed now).1
  | .polled _ _ => none
  | .loading _ _ => none
  | .called _ => none

/-- The answer shows the committed file, or says nothing about it. -/
def Observation.Agrees (settings : MountSettings) (table : InodeTable)
    (now : Time) (ino : Ino) (entry : InodeEntry) : Observation → Prop
  | .compared entries prefixes snapshot =>
      (∀ seen ∈ snapshot, seen.inode = ino →
        ListingAgrees entries prefixes seen entry) ∧
      ∀ seen ∈ snapshot, isDeleted entries prefixes seen = true →
        table.hasOpenHandles seen.inode = true →
        deletionTarget table seen.inode ≠ some ino
  | .listed parent listing =>
      ListingSpares settings.listing listing parent now table ino
  | .answered call answer probed =>
      call.ino = ino → HeadAgrees settings.revalidate call answer probed entry
  | .polled _ _ => True
  | .loading _ _ => True
  | .called _ => True

instance (settings : MountSettings) (table : InodeTable) (now : Time)
    (ino : Ino) (entry : InodeEntry) (observation : Observation) :
    Decidable (observation.Agrees settings table now ino entry) := by
  cases observation <;> unfold Observation.Agrees <;> infer_instance

namespace StaleViews

variable (settings : MountSettings)

def new : StaleViews :=
  { table := .new
    views := fun _ => none }

def withView (state : StaleViews) (id : Nat) (observation : Observation) :
    StaleViews :=
  { state with
    views := Function.update state.views id (some
      { observation
        commits := [] }) }

def step (state : StaleViews) : StaleViewEvent → Option StaleViews
  | .other op =>
      (state.table.applyOp op).map fun table => { state with table }
  | .commit ino hash size generation now =>
      if commitLands state.table ino generation then
        some
          { table := state.table.modify ino
              (·.applyCommit hash size generation now)
            views := fun id => (state.views id).map (·.committed ino) }
      else none
  | .polled id entries prefixes =>
      some (state.withView id (.polled entries prefixes))
  | .snapshot id =>
      match state.views id with
      | some { observation := .polled entries prefixes, commits } =>
          some { state with
            views := Function.update state.views id (some
              { observation :=
                  .compared entries prefixes state.table.fileSnapshot
                commits }) }
      | _ => none
  | .load id parent =>
      match state.table.get parent with
      | none => none
      | some entry =>
          if entry.kind = .directory && !entry.childrenLoaded then
            some (state.withView id (.loading parent entry.fullPath))
          else none
  | .listed id entries plaintextSizes =>
      match state.views id with
      | some { observation := .loading parent dir, commits := _ } =>
          some (state.withView id
            (.listed parent { dir, entries, plaintextSizes }))
      | _ => none
  | .lookup id parent name =>
      match state.table.lookupChild parent name with
      | none => none
      | some entry =>
          if entry.kind = .file && !entry.isDirty then
            some (state.withView id (.called
              { ino := entry.inode
                fullPath := entry.fullPath
                currentHash := entry.xetHash
                currentEtag := entry.etag }))
          else none
  | .answered id answer probed =>
      match state.views id with
      | some { observation := .called call, commits := _ } =>
          some (state.withView id (.answered call answer probed))
      | _ => none
  | .apply id now =>
      (state.views id).bind fun view =>
        (view.observation.apply settings state.table now).map fun table =>
          { table
            views := Function.update state.views id none }

/-- The inodes that a view is about are files of the table, or gone. -/
def Regular (table : InodeTable) (ino : Ino) : Prop :=
  ino < table.nextInode ∧ IsFile table ino

theorem Regular.aged {before after : InodeTable} {ino : Ino}
    (regular : Regular before ino) (ages : before.Ages after) :
    Regular after ino := by
  refine ⟨Nat.lt_of_lt_of_le regular.1 ages.nextInode, ?_⟩
  intro entry got
  obtain ⟨old, found, kind⟩ := ages.kind regular.1 got
  exact kind.trans (regular.2 old found)

theorem regular_of_get {table : InodeTable} (leafy : table.Leafy) {ino : Ino}
    {entry : InodeEntry} (found : table.get ino = some entry)
    (file : entry.kind = .file) : Regular table ino := by
  refine ⟨leafy.bounded found, ?_⟩
  intro other got
  obtain rfl := Option.some.inj (found.symm.trans got)
  exact file

/-- The files that an observation has read from the table. -/
def observed : Observation → List Ino
  | .compared _ _ snapshot => snapshot.map (·.inode)
  | .called call => [call.ino]
  | .answered call _ _ => [call.ino]
  | .polled _ _ => []
  | .loading _ _ => []
  | .listed _ _ => []

/-- Files are leaves, and the views are about files. -/
structure FilesOnly (state : StaleViews) : Prop where
  leafy : state.table.Leafy
  commits : ∀ {id : Nat} {view : View}, state.views id = some view →
    ∀ ino ∈ view.commits, Regular state.table ino
  observed : ∀ {id : Nat} {view : View}, state.views id = some view →
    ∀ ino ∈ observed view.observation, Regular state.table ino

theorem FilesOnly.withView {state : StaleViews} (only : state.FilesOnly)
    {id : Nat} {observation : Observation}
    (files : ∀ ino ∈ StaleViews.observed observation,
      Regular state.table ino) :
    (state.withView id observation).FilesOnly := by
  have views : ∀ {other view},
      (state.withView id observation).views other = some view →
      state.views other = some view ∨ view = ⟨observation, []⟩ := by
    intro other view found
    unfold StaleViews.withView at found
    dsimp only at found
    by_cases same : other = id
    · rw [same, Function.update_self] at found
      exact Or.inr (Option.some.inj found).symm
    · rw [Function.update_of_ne same] at found
      exact Or.inl found
  refine ⟨only.leafy, ?_, ?_⟩
  · intro other view found
    rcases views found with old | rfl
    · exact only.commits old
    · exact fun ino listed => by cases listed
  · intro other view found
    rcases views found with old | rfl
    · exact only.observed old
    · exact files

theorem FilesOnly.aged {state : StaleViews} (only : state.FilesOnly)
    {table : InodeTable} (leafy : table.Leafy) (ages : state.table.Ages table)
    {views : Nat → Option View}
    (fewer : ∀ id view, views id = some view → state.views id = some view) :
    FilesOnly { table, views } := by
  refine ⟨leafy, ?_, ?_⟩
  · intro id view found ino listed
    exact (only.commits (fewer id view found) ino listed).aged ages
  · intro id view found ino listed
    exact (only.observed (fewer id view found) ino listed).aged ages

theorem tapers_applyPollSnapshot (snapshot : List InodeEntry)
    (remoteEntries : List TreeEntry) (polledPrefixes : List Path) (now : Time)
    (table : InodeTable) :
    table.Tapers (applyPollSnapshot snapshot remoteEntries polledPrefixes now
      table) := by
  have invalidated : ∀ (current : InodeTable) (dir : Ino × Path),
      current.Tapers (current.invalidateChildren dir.1) := fun current dir =>
    InodeTable.tapers_fields current dir.1 (fun _ => ⟨rfl, rfl⟩) fun _ => rfl
  unfold applyPollSnapshot removeAll
  exact ((InodeTable.tapers_foldl tapers_applyUpdate _ table).trans
    (InodeTable.tapers_foldl (fun current ino =>
      InodeTable.tapers_removeRemoteFile current ino now) _ _)).trans
    (InodeTable.tapers_foldl invalidated _ _)

theorem leafy_apply {settings : MountSettings} {table after : InodeTable}
    {now : Time} {observation : Observation} (leafy : table.Leafy)
    (applied : observation.apply settings table now = some after) :
    after.Leafy ∧ table.Ages after := by
  cases observation with
  | compared entries prefixes snapshot =>
      obtain rfl := Option.some.inj applied
      exact (tapers_applyPollSnapshot snapshot entries prefixes now table).leafy
        leafy
  | listed parent listing =>
      obtain rfl := Option.some.inj applied
      exact leafy_installListing settings.listing listing parent now leafy
  | answered call answer probed =>
      obtain rfl := Option.some.inj applied
      exact (Revalidations.tapers_revalidateFile settings.revalidate table call
        answer probed now).leafy leafy
  | polled entries prefixes => cases applied
  | loading parent dir => cases applied
  | called call => cases applied

theorem tapers_applyCommit (table : InodeTable) (ino : Ino) (hash : Hash)
    (size generation : Nat) (now : Time) :
    table.Tapers
      (table.modify ino (·.applyCommit hash size generation now)) := by
  apply InodeTable.tapers_fields
  · intro entry
    unfold InodeEntry.applyCommit InodeEntry.clearDirtyIf
    dsimp only
    split <;> exact ⟨rfl, rfl⟩
  · intro entry
    unfold InodeEntry.applyCommit InodeEntry.clearDirtyIf
    dsimp only
    split <;> rfl

theorem FilesOnly.step {before after : StaleViews} {event : StaleViewEvent}
    (only : before.FilesOnly)
    (stepped : before.step settings event = some after) : after.FilesOnly := by
  cases event with
  | other op =>
      obtain ⟨table, applied, rfl⟩ := Option.map_eq_some_iff.mp stepped
      obtain ⟨leafy, ages⟩ := only.leafy.applyOp applied
      exact only.aged leafy ages fun _ _ found => found
  | commit ino hash size generation now =>
      simp only [StaleViews.step] at stepped
      split at stepped <;> rename_i lands
      · obtain rfl := Option.some.inj stepped
        have file : Regular before.table ino := by
          unfold commitLands at lands
          cases found : before.table.get ino with
          | none =>
              rw [found] at lands
              cases lands
          | some entry =>
              rw [found] at lands
              simp only [Option.any_some, Bool.and_eq_true,
                decide_eq_true_eq] at lands
              exact regular_of_get only.leafy found lands.1.1
        obtain ⟨leafy, ages⟩ := (tapers_applyCommit before.table ino hash size
          generation now).leafy only.leafy
        refine ⟨leafy, ?_, ?_⟩
        · intro id view found other listed
          obtain ⟨old, foundOld, rfl⟩ := Option.map_eq_some_iff.mp found
          rcases List.mem_cons.mp listed with rfl | inOld
          · exact file.aged ages
          · exact (only.commits foundOld other inOld).aged ages
        · intro id view found other listed
          obtain ⟨old, foundOld, rfl⟩ := Option.map_eq_some_iff.mp found
          exact (only.observed foundOld other listed).aged ages
      · cases stepped
  | polled id entries prefixes =>
      obtain rfl := Option.some.inj stepped
      exact only.withView fun ino listed => by cases listed
  | snapshot id =>
      simp only [StaleViews.step] at stepped
      split at stepped <;> rename_i viewed
      · rename_i entries prefixes commits
        obtain rfl := Option.some.inj stepped
        refine ⟨only.leafy, ?_, ?_⟩
        · intro other view found
          dsimp only at found
          by_cases same : other = id
          · rw [same, Function.update_self] at found
            obtain rfl := Option.some.inj found
            have files := only.commits viewed
            exact files
          · rw [Function.update_of_ne same] at found
            exact only.commits found
        · intro other view found
          dsimp only at found
          by_cases same : other = id
          · rw [same, Function.update_self] at found
            obtain rfl := Option.some.inj found
            intro ino listed
            obtain ⟨seen, inSnapshot, rfl⟩ := List.mem_map.mp listed
            obtain ⟨inValues, file⟩ := List.mem_filter.mp inSnapshot
            obtain ⟨key, got⟩ := InodeTable.mem_values.mp inValues
            rw [only.leafy.key got]
            exact regular_of_get only.leafy got (of_decide_eq_true file)
          · rw [Function.update_of_ne same] at found
            exact only.observed found
      · cases stepped
  | load id parent =>
      simp only [StaleViews.step] at stepped
      split at stepped
      · cases stepped
      split at stepped
      · obtain rfl := Option.some.inj stepped
        exact only.withView fun ino listed => by cases listed
      · cases stepped
  | listed id entries plaintextSizes =>
      simp only [StaleViews.step] at stepped
      split at stepped
      · obtain rfl := Option.some.inj stepped
        exact only.withView fun ino listed => by cases listed
      · cases stepped
  | lookup id parent name =>
      simp only [StaleViews.step] at stepped
      split at stepped <;> rename_i looked
      · cases stepped
      split at stepped <;> rename_i due
      · rename_i entry
        obtain rfl := Option.some.inj stepped
        simp only [Bool.and_eq_true, decide_eq_true_eq] at due
        obtain ⟨ino, _, got⟩ := Option.bind_eq_some_iff.mp looked
        apply only.withView
        intro other listed
        obtain rfl := List.mem_singleton.mp listed
        rw [only.leafy.key got]
        exact regular_of_get only.leafy got due.1
      · cases stepped
  | answered id answer probed =>
      simp only [StaleViews.step] at stepped
      split at stepped <;> rename_i viewed
      · obtain rfl := Option.some.inj stepped
        exact only.withView fun ino listed => only.observed viewed ino listed
      · cases stepped
  | apply id now =>
      obtain ⟨view, _, applied⟩ := Option.bind_eq_some_iff.mp stepped
      obtain ⟨table, observed, rfl⟩ := Option.map_eq_some_iff.mp applied
      obtain ⟨leafy, ages⟩ := leafy_apply only.leafy observed
      apply only.aged leafy ages
      intro other otherView found
      by_cases same : other = id
      · rw [same, Function.update_self] at found
        cases found
      · rwa [Function.update_of_ne same] at found

def plainMount : MountSettings :=
  { revalidate := Revalidations.plainSettings
    listing :=
      { encrypting := false
        defaultMtime := 0
        dirMode := 493
        fileMode := 420
        uid := 0
        gid := 0 } }

end StaleViews

end HfMount.Vfs
