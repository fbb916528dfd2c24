import HfMount.Vfs.Leaves

/-!
# Revalidation of cached files

A lookup of a clean cached file asks the remote for its current hash.  The
answer is applied to the table that the other operations have left in the
meantime, and it is compared with what the lookup read before.
-/

namespace HfMount.Vfs

open SlashPath Inode Poll Transition

structure HeadFileInfo where
  xetHash : Option Hash
  etag : Option Hash
  size : Option Nat
  lastModified : Option Time
  deriving DecidableEq

/-- The answer to a HEAD request; `missing` is a 404. -/
inductive HeadAnswer where
  | found (head : HeadFileInfo)
  | missing
  | failed
  deriving DecidableEq

/-- The arguments of `revalidateFile`. -/
structure Revalidation where
  ino : Ino
  fullPath : Path
  currentHash : Option Hash
  currentEtag : Option Hash
  deriving DecidableEq

structure RevalidateSettings where
  serveLookupFromCache : Bool
  metadataTtl : Nat
  encrypting : Bool

/-- The HEAD request is skipped. -/
def RevalidateSettings.recentlyValidated (settings : RevalidateSettings)
    (entry : InodeEntry) (now : Time) : Bool :=
  settings.serveLookupFromCache &&
    entry.lastRevalidated.any fun last =>
      decide (now - last < settings.metadataTtl)

/-- The hash decides, or the ETag when neither side has a hash. -/
def Revalidation.changed (call : Revalidation) (head : HeadFileInfo) : Bool :=
  if call.currentHash.isSome || head.xetHash.isSome then
    head.xetHash != call.currentHash
  else head.etag != call.currentEtag

/-- The visible size and the size of the ciphertext; an encrypted file whose
header could not be probed has none. -/
def RevalidateSettings.sizes (settings : RevalidateSettings)
    (probed : Option Nat) (size : Nat) : Option (Nat × Option Nat) :=
  if settings.encrypting then
    probed.map fun plaintext => (plaintext, some size)
  else some (size, none)

/-- What `revalidateFile` does with the answer. -/
def revalidateFile (settings : RevalidateSettings) (table : InodeTable)
    (call : Revalidation) (answer : HeadAnswer) (probed : Option Nat)
    (now : Time) : InodeTable × List (Ino × InvalKind) :=
  match answer with
  | .failed => (table, [])
  | .missing =>
      (table.remove call.ino,
        match table.get call.ino with
        | some entry =>
            [(entry.parent, .pages), queueFileInvalidation table call.ino]
        | none => [])
  | .found head =>
      if call.changed head then
        match head.size.bind (settings.sizes probed) with
        | none => (table, [])
        | some sizes =>
            let updated := (table.updateRemoteFile call.ino head.xetHash
              head.etag sizes.1 (head.lastModified.getD now) sizes.2).2
            (updated.modify call.ino fun entry =>
                { entry with lastRevalidated := some now },
              [queueFileInvalidation updated call.ino])
      else
        let etagged := if head.etag.isSome then
            table.modify call.ino fun entry => { entry with etag := head.etag }
          else table
        (etagged.modify call.ino fun entry =>
          { entry with lastRevalidated := some now }, [])

/-! ## What an answer changes -/

/-- The content metadata of an inode, and its open handles. -/
structure SameMetadata (left right : InodeEntry) : Prop where
  size : right.size = left.size
  xetHash : right.xetHash = left.xetHash
  dirtyGeneration : right.dirtyGeneration = left.dirtyGeneration
  openHandles : right.eviction.openHandles = left.eviction.openHandles

theorem SameMetadata.refl (entry : InodeEntry) : SameMetadata entry entry :=
  ⟨rfl, rfl, rfl, rfl⟩

/-- The inode has what it had, or it was clean and has what the answer
says. -/
structure Answered (settings : RevalidateSettings) (answer : HeadAnswer)
    (probed : Option Nat) (left right : InodeEntry) : Prop where
  dirtyGeneration : right.dirtyGeneration = left.dirtyGeneration
  openHandles : right.eviction.openHandles = left.eviction.openHandles
  content : SameMetadata left right ∨ left.isDirty = false ∧
    ∃ head, answer = .found head ∧ right.xetHash = head.xetHash ∧
      (head.size.bind (settings.sizes probed)).map (·.1) = some right.size

section

variable {settings : RevalidateSettings} {call : Revalidation}
  {answer : HeadAnswer} {probed : Option Nat}

theorem Answered.of_same {left right : InodeEntry}
    (same : SameMetadata left right) :
    Answered settings answer probed left right :=
  ⟨same.dirtyGeneration, same.openHandles, Or.inl same⟩

/-- A stamp of the revalidation, after a change of the entry. -/
theorem answered_stamp (table : InodeTable) (ino : Ino) (now : Time) :
    ∀ other entry, table.get other = some entry → ∃ after,
      (table.modify ino fun entry =>
        { entry with lastRevalidated := some now }).get other = some after ∧
      SameMetadata entry after := by
  intro other entry found
  rw [InodeTable.get_modify]
  split <;> rename_i here
  · subst here
    rw [found]
    exact ⟨_, rfl, rfl, rfl, rfl, rfl⟩
  · exact ⟨entry, found, .refl entry⟩

/-- An answer other than a 404 leaves every inode in the table; it changes no
other inode, and no mapping. -/
theorem answered_revalidateFile (table : InodeTable)
    (notMissing : answer ≠ .missing) (now : Time) :
    ((revalidateFile settings table call answer probed now).1.pathToInode =
        table.pathToInode) ∧
      ∀ other entry, table.get other = some entry → ∃ after,
        (revalidateFile settings table call answer probed now).1.get other =
          some after ∧
        (other ≠ call.ino → SameMetadata entry after) ∧
        Answered settings answer probed entry after := by
  have unchanged : ∀ other entry, table.get other = some entry → ∃ after,
      table.get other = some after ∧
      (other ≠ call.ino → SameMetadata entry after) ∧
      Answered settings answer probed entry after :=
    fun other entry found =>
      ⟨entry, found, fun _ => .refl entry, .of_same (.refl entry)⟩
  unfold revalidateFile
  split
  · exact ⟨rfl, unchanged⟩
  · exact absurd rfl notMissing
  rename_i head
  split
  · split <;> rename_i sized
    · exact ⟨rfl, unchanged⟩
    rename_i sizes
    dsimp only
    unfold InodeTable.updateRemoteFile
    split <;> rename_i foundCall
    · refine ⟨InodeTable.pathToInode_modify _ _ _, ?_⟩
      intro other entry found
      obtain ⟨after, got, same⟩ := answered_stamp table call.ino now other
        entry found
      exact ⟨after, got, fun _ => same, .of_same same⟩
    rename_i callEntry
    split <;> rename_i dirty
    · refine ⟨InodeTable.pathToInode_modify _ _ _, ?_⟩
      intro other entry found
      obtain ⟨after, got, same⟩ := answered_stamp table call.ino now other
        entry found
      exact ⟨after, got, fun _ => same, .of_same same⟩
    · refine ⟨InodeTable.pathToInode_modify _ _ _, ?_⟩
      intro other entry found
      rw [InodeTable.get_modify]
      split <;> rename_i here
      · subst here
        obtain rfl := Option.some.inj (foundCall.symm.trans found)
        rw [InodeTable.get_put_self]
        refine ⟨_, rfl, fun other => absurd rfl other, rfl, rfl, Or.inr ?_⟩
        exact ⟨by simpa using dirty, head, rfl, rfl, by rw [sized]; rfl⟩
      · rw [InodeTable.get_put_of_ne _ here]
        exact ⟨entry, found, fun _ => .refl entry, .of_same (.refl entry)⟩
  · dsimp only
    obtain ⟨etagged, etaggedDef⟩ : ∃ etagged : InodeTable, etagged =
        if head.etag.isSome then
          table.modify call.ino fun entry => { entry with etag := head.etag }
        else table := ⟨_, rfl⟩
    rw [← etaggedDef]
    have etag : ∀ other entry, table.get other = some entry → ∃ after,
        etagged.get other = some after ∧ SameMetadata entry after := by
      intro other entry found
      rw [etaggedDef]
      split
      · rw [InodeTable.get_modify]
        split <;> rename_i here
        · subst here
          rw [found]
          exact ⟨_, rfl, rfl, rfl, rfl, rfl⟩
        · exact ⟨entry, found, .refl entry⟩
      · exact ⟨entry, found, .refl entry⟩
    refine ⟨?_, ?_⟩
    · rw [InodeTable.pathToInode_modify, etaggedDef]
      split
      · exact InodeTable.pathToInode_modify _ _ _
      · rfl
    · intro other entry found
      obtain ⟨middle, foundMiddle, first⟩ := etag other entry found
      obtain ⟨after, got, second⟩ := answered_stamp etagged call.ino now other
        middle foundMiddle
      have same : SameMetadata entry after :=
        ⟨second.size.trans first.size, second.xetHash.trans first.xetHash,
          second.dirtyGeneration.trans first.dirtyGeneration,
          second.openHandles.trans first.openHandles⟩
      exact ⟨after, got, fun _ => same, .of_same same⟩

/-- Removing a file without children leaves every other inode, and the
mappings of other inodes when its path is its own. -/
theorem remove_leaf_keeps {table : InodeTable} {ino : Ino} {entry : InodeEntry}
    (found : table.get ino = some entry) (leaf : entry.children = [])
    (own : ∀ target, table.pathToInode entry.fullPath = some target →
      target = ino) :
    (∀ other otherEntry, other ≠ ino → table.get other = some otherEntry →
        ∃ after, (table.remove ino).get other = some after ∧
          SameMetadata otherEntry after) ∧
      ∀ path other, other ≠ ino → table.pathToInode path = some other →
        (table.remove ino).pathToInode path = some other := by
  rw [InodeTable.remove_of_leaf found leaf]
  constructor
  · intro other otherEntry distinct foundOther
    have still : ((table.erase ino).removePath entry.fullPath).get other =
        some otherEntry := by
      rw [InodeTable.get_removePath, InodeTable.get_erase, if_neg distinct]
      exact foundOther
    unfold InodeTable.detachFromParent
    rw [InodeTable.get_modify]
    split <;> rename_i here
    · subst here
      rw [still]
      refine ⟨_, rfl, ?_⟩
      unfold InodeEntry.removeChildByIno
      dsimp only
      split <;> exact ⟨rfl, rfl, rfl, rfl⟩
    · exact ⟨otherEntry, still, .refl otherEntry⟩
  · intro path other distinct mapped
    rw [InodeTable.detachFromParent_path]
    have elsewhere : path ≠ entry.fullPath := by
      rintro rfl
      exact distinct (own other mapped)
    exact (Function.update_of_ne elsewhere _ _).trans mapped

end

/-! ## Runs -/

structure Revalidations where
  table : InodeTable
  calls : Nat → Option Revalidation

inductive RevalidationEvent where
  /-- open, create, write, truncate, unlink, rename, commit, poll. -/
  | other (op : TableOp)
  | lookup (id : Nat) (parent : Ino) (name : Name) (now : Time)
  | answered (id : Nat) (answer : HeadAnswer) (probed : Option Nat) (now : Time)

namespace Revalidations

variable (settings : RevalidateSettings)

def new : Revalidations :=
  { table := .new
    calls := fun _ => none }

def step (state : Revalidations) : RevalidationEvent → Option Revalidations
  | .other op =>
      (state.table.applyOp op).map fun table => { state with table }
  | .lookup id parent name now =>
      match state.table.lookupChild parent name with
      | none => none
      | some entry =>
          if entry.kind = .file && !entry.isDirty &&
              !settings.recentlyValidated entry now then
            some { state with
              calls := Function.update state.calls id (some
                { ino := entry.inode
                  fullPath := entry.fullPath
                  currentHash := entry.xetHash
                  currentEtag := entry.etag }) }
          else none
  | .answered id answer probed now =>
      (state.calls id).map fun call =>
        { table :=
            (revalidateFile settings state.table call answer probed now).1
          calls := Function.update state.calls id none }

/-- Files are leaves, and only files are revalidated. -/
structure FilesOnly (state : Revalidations) : Prop where
  leafy : state.table.Leafy
  file : ∀ {id : Nat} {call : Revalidation}, state.calls id = some call →
    call.ino < state.table.nextInode ∧
      ∀ entry, state.table.get call.ino = some entry → entry.kind = .file

theorem tapers_revalidateFile (table : InodeTable) (call : Revalidation)
    (answer : HeadAnswer) (probed : Option Nat) (now : Time) :
    table.Tapers (revalidateFile settings table call answer probed now).1 := by
  have stamped : ∀ current : InodeTable, current.Tapers
      (current.modify call.ino fun entry =>
        { entry with lastRevalidated := some now }) := fun current =>
    InodeTable.tapers_fields current call.ino (fun _ => ⟨rfl, rfl⟩)
      fun _ => rfl
  unfold revalidateFile
  split
  · exact .refl table
  · exact InodeTable.tapers_remove table call.ino
  split
  · split
    · exact .refl table
    · refine InodeTable.Tapers.trans ?_ (stamped _)
      unfold InodeTable.updateRemoteFile
      split <;> rename_i found
      · exact .refl table
      split
      · exact .refl table
      · exact InodeTable.tapers_put found ⟨rfl, rfl⟩ fun _ leaf => leaf
  · refine InodeTable.Tapers.trans ?_ (stamped _)
    split
    · exact InodeTable.tapers_fields table call.ino (fun _ => ⟨rfl, rfl⟩)
        fun _ => rfl
    · exact .refl table

/-- Pending calls are still about files when the table has aged. -/
theorem FilesOnly.aged {state : Revalidations} (only : state.FilesOnly)
    {table : InodeTable} (leafy : table.Leafy) (ages : state.table.Ages table)
    {calls : Nat → Option Revalidation}
    (fewer : ∀ id call, calls id = some call → state.calls id = some call) :
    FilesOnly { table, calls } := by
  refine ⟨leafy, ?_⟩
  intro id call found
  obtain ⟨bounded, file⟩ := only.file (fewer id call found)
  refine ⟨Nat.lt_of_lt_of_le bounded ages.nextInode, ?_⟩
  intro entry got
  obtain ⟨before, gotBefore, kind⟩ := ages.kind bounded got
  exact kind.trans (file before gotBefore)

theorem FilesOnly.step {before after : Revalidations}
    {event : RevalidationEvent} (only : before.FilesOnly)
    (stepped : before.step settings event = some after) : after.FilesOnly := by
  cases event with
  | other op =>
      obtain ⟨table, applied, rfl⟩ := Option.map_eq_some_iff.mp stepped
      obtain ⟨leafy, ages⟩ := only.leafy.applyOp applied
      exact only.aged leafy ages fun _ _ found => found
  | lookup id parent name now =>
      simp only [Revalidations.step] at stepped
      split at stepped <;> rename_i looked
      · cases stepped
      split at stepped <;> rename_i due
      · rename_i entry
        obtain rfl := Option.some.inj stepped
        simp only [Bool.and_eq_true, decide_eq_true_eq] at due
        refine ⟨only.leafy, ?_⟩
        intro other call found
        dsimp only at found
        by_cases same : other = id
        · rw [same, Function.update_self] at found
          obtain rfl := Option.some.inj found
          obtain ⟨ino, _, got⟩ := Option.bind_eq_some_iff.mp looked
          rw [only.leafy.key got]
          refine ⟨only.leafy.bounded got, ?_⟩
          intro again gotAgain
          obtain rfl := Option.some.inj (got.symm.trans gotAgain)
          exact due.1.1
        · rw [Function.update_of_ne same] at found
          exact only.file found
      · cases stepped
  | answered id answer probed now =>
      obtain ⟨call, _, rfl⟩ := Option.map_eq_some_iff.mp stepped
      obtain ⟨leafy, ages⟩ := (tapers_revalidateFile settings before.table call
        answer probed now).leafy only.leafy
      apply only.aged leafy ages
      intro other otherCall found
      by_cases same : other = id
      · rw [same, Function.update_self] at found
        cases found
      · rwa [Function.update_of_ne same] at found

/-- What a revalidation leaves of the local state. -/
structure LocalStateKept (before after : InodeTable) (ino : Ino)
    (answer : HeadAnswer) (probed : Option Nat) : Prop where
  others : ∀ other entry, other ≠ ino → before.get other = some entry →
    ∃ now, after.get other = some now ∧ SameMetadata entry now
  mappings : ∀ path other, other ≠ ino →
    before.pathToInode path = some other → after.pathToInode path = some other
  dirty : ∀ entry, answer ≠ .missing → before.get ino = some entry →
    entry.isDirty = true →
    ∃ now, after.get ino = some now ∧ SameMetadata entry now
  opened : ∀ entry, answer ≠ .missing → before.get ino = some entry →
    entry.hasOpenHandles = true →
    ∃ now, after.get ino = some now ∧
      Answered settings answer probed entry now

/-- Whatever ran during the request, the answer leaves the local state as
`LocalStateKept` says; for a 404 the path of the inode must not have passed to
another one. -/
theorem local_state_kept {events : List RevalidationEvent}
    {before after : Revalidations} {id : Nat} {call : Revalidation}
    {answer : HeadAnswer} {probed : Option Nat} {now : Time}
    (run : exec (step settings) new events = some before)
    (called : before.calls id = some call)
    (applied : before.step settings (.answered id answer probed now) =
      some after)
    (own : answer = .missing → ∀ entry,
      before.table.get call.ino = some entry →
      ∀ target, before.table.pathToInode entry.fullPath = some target →
        target = call.ino) :
    LocalStateKept settings before.table after.table call.ino answer
      probed := by
  have only : before.FilesOnly :=
    exec_invariant_of_step
      (fun _ _ _ invariant stepped => FilesOnly.step settings invariant stepped)
      ⟨InodeTable.leafy_new, fun found => by cases found⟩ run
  obtain ⟨again, calledAgain, rfl⟩ := Option.map_eq_some_iff.mp applied
  obtain rfl := Option.some.inj (called.symm.trans calledAgain)
  by_cases missing : answer = .missing
  · subst missing
    have removed : (revalidateFile settings before.table call .missing probed
        now).1 = before.table.remove call.ino := rfl
    dsimp only
    rw [removed]
    cases found : before.table.get call.ino with
    | none =>
        have same : before.table.remove call.ino = before.table := by
          simp only [InodeTable.remove, found]
        rw [same]
        exact ⟨fun other entry _ got => ⟨entry, got, .refl entry⟩,
          fun _ _ _ mapped => mapped, fun _ absent => absurd rfl absent,
          fun _ absent => absurd rfl absent⟩
    | some entry =>
        have leaf := only.leafy.leaf found ((only.file called).2 entry found)
        obtain ⟨others, mappings⟩ :=
          remove_leaf_keeps found leaf (own rfl entry found)
        exact ⟨others, mappings, fun _ absent => absurd rfl absent,
          fun _ absent => absurd rfl absent⟩
  · obtain ⟨mappings, kept⟩ := @answered_revalidateFile settings call answer
      probed before.table missing now
    constructor
    · intro other entry distinct found
      obtain ⟨still, got, same, _⟩ := kept other entry found
      exact ⟨still, got, same distinct⟩
    · intro path other _ mapped
      rw [mappings]
      exact mapped
    · intro entry _ found dirty
      obtain ⟨still, got, _, answered⟩ := kept call.ino entry found
      refine ⟨still, got, ?_⟩
      rcases answered.content with same | ⟨clean, _⟩
      · exact same
      · rw [dirty] at clean
        cases clean
    · intro entry _ found _
      obtain ⟨still, got, _, answered⟩ := kept call.ino entry found
      exact ⟨still, got, answered⟩

/-- A file `a` of the remote is looked up. -/
def lookedUp : List RevalidationEvent :=
  [.other (.insert rootInode ['a'] ['a'] .file 3 0 (some ['1']) 420 0 0 0),
    .lookup 0 rootInode ['a'] 1]

def written : FieldChange :=
  { change := InodeEntry.setDirty
    same := InodeEntry.sameLinks_setDirty }

def plainSettings : RevalidateSettings :=
  { serveLookupFromCache := false
    metadataTtl := 0
    encrypting := false }

theorem local_state_kept_written_meanwhile :
    LocalStateKept plainSettings
      ((exec (step plainSettings) new
        (lookedUp ++ [.other (.update 2 written)])).get (by decide)).table
      ((exec (step plainSettings) new (lookedUp ++ [.other (.update 2 written),
        .answered 0 (.found ⟨some ['2'], none, some 5, none⟩) none 2])).get
          (by decide)).table
      2 (.found ⟨some ['2'], none, some 5, none⟩) none :=
  @local_state_kept plainSettings (lookedUp ++ [.other (.update 2 written)])
    ((exec (step plainSettings) new
      (lookedUp ++ [.other (.update 2 written)])).get (by decide))
    ((exec (step plainSettings) new (lookedUp ++ [.other (.update 2 written),
      .answered 0 (.found ⟨some ['2'], none, some 5, none⟩) none 2])).get
        (by decide))
    0 ⟨2, ['a'], some ['1'], none⟩ (.found ⟨some ['2'], none, some 5, none⟩)
    none 2 (Option.some_get _).symm rfl rfl (by rintro ⟨⟩)

/-- The inode, when it is dirty or open, is still there with its metadata, and
the other inodes keep their mappings. -/
def NothingDropped (before after : InodeTable) (ino : Ino) : Prop :=
  (∀ entry, before.get ino = some entry →
    (entry.isDirty || entry.hasOpenHandles) = true →
    ∃ now, after.get ino = some now ∧ SameMetadata entry now) ∧
  ∀ path other, other ≠ ino → before.pathToInode path = some other →
    after.pathToInode path = some other

/-- An open clean file gets the hash and size of the answer, and a 404 removes
a file that was written during the request. -/
theorem local_state_dropped :
    (¬ ∀ (events : List RevalidationEvent) (before after : Revalidations)
      (id : Nat) (call : Revalidation) (head : HeadFileInfo)
      (probed : Option Nat) (now : Time),
      exec (step plainSettings) new events = some before →
      before.calls id = some call →
      before.step plainSettings (.answered id (.found head) probed now) =
        some after →
      NothingDropped before.table after.table call.ino) ∧
    ¬ ∀ (events : List RevalidationEvent) (before after : Revalidations)
      (id : Nat) (call : Revalidation) (probed : Option Nat) (now : Time),
      exec (step plainSettings) new events = some before →
      before.calls id = some call →
      before.step plainSettings (.answered id .missing probed now) =
        some after →
      NothingDropped before.table after.table call.ino := by
  constructor
  · intro claim
    obtain ⟨kept, _⟩ := claim (lookedUp ++ [.other (.update 2 InodeTable.opened)]) _ _ 0 _
      ⟨some ['2'], none, some 5, none⟩ none 2 rfl rfl rfl
    obtain ⟨now, found, same⟩ := kept _ rfl (by decide)
    obtain rfl := Option.some.inj found
    exact absurd same.size (by decide)
  · intro claim
    obtain ⟨kept, _⟩ := claim (lookedUp ++ [.other (.update 2 written)]) _ _ 0 _
      none 2 rfl rfl rfl
    obtain ⟨now, found, _⟩ := kept _ rfl (by decide)
    cases found

end Revalidations

end HfMount.Vfs
