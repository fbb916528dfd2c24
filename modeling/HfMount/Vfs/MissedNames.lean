import HfMount.Vfs.ListedChildren
import HfMount.Vfs.LocalEntries
import HfMount.Vfs.LookupCalls

/-!
# Names that a lookup has missed

A lookup puts a name into the negative cache when a HEAD request and a listing
have both missed it.  It listed the path itself when the parent was loaded, and
the parent when it was not.  The requests, the installation of the listing and
the last look at the inode table are steps of their own, and other lookups,
loads, creates and the remote go on between them.
-/

namespace HfMount.Vfs

open SlashPath Inode Poll Transition

/-- The answer to a request; a transient failure may go away. -/
inductive HubAnswer (α : Type) where
  | ok (value : α)
  | missing
  | failed (isTransient : Bool)

inductive HeadProbe where
  | file (head : HeadFileInfo)
  | transient
  | inconclusive

/-- Only a hit with a size is taken for a file. -/
def headProbe : HubAnswer HeadFileInfo → HeadProbe
  | .ok head => if head.size.isSome then .file head else .inconclusive
  | .missing => .inconclusive
  | .failed isTransient => if isTransient then .transient else .inconclusive

/-- How far a lookup has come.  `missed` waits for the listing of the path
itself.  `unloaded` is about to load the parent, `listing` waits for the Hub
and `listed` has the answer, which `installed` has put into the table;
`loadedEarlier` has found the parent loaded.  `absent` is about to fill the
negative cache. -/
inductive LookupPhase where
  | probing
  | missed
  | unloaded
  | listing (dir : Path)
  | listed (listing : Listing)
  | installed (listing : Listing)
  | loadedEarlier
  | absent

structure Lookup where
  call : LookupCall
  phase : LookupPhase

structure LookupMount where
  tree : MountedTree
  remote : Remote
  lookups : Nat → Option Lookup

/-- `tree` stands for what the other calls, polls and evictions do to the inode
table and the negative cache.  The events from `lookup` on are the steps of
one lookup. -/
inductive LookupEvent where
  | tree (event : TreeEvent)
  | create (parent : Ino) (name : Name) (kind : InodeKind)
      (size mode uid gid : Nat) (now : Time) (finish : FieldChange)
  | remote (remote : Remote)
  | lookup (id : Nat) (parent : Ino) (name : Name)
  | head (id : Nat) (answer : HubAnswer HeadFileInfo) (probed : Option Nat)
      (now : Time)
  | missListing (id : Nat) (answer : HubAnswer Listing) (now : Time)
  | startLoad (id : Nat)
  | parentListing (id : Nat) (answer : HubAnswer Listing)
  | install (id : Nat) (now : Time)
  | find (id : Nat)
  | cache (id : Nat) (now : Time)

/-- The lookup that takes the step. -/
def LookupEvent.owner : LookupEvent → Option Nat
  | .tree _ | .create _ _ _ _ _ _ _ _ _ | .remote _ => none
  | .lookup id _ _ | .head id _ _ _ | .missListing id _ _ | .startLoad id
  | .parentListing id _ | .install id _ | .find id | .cache id _ => some id

namespace LookupMount

def table (state : LookupMount) : InodeTable := state.tree.table

def setTable (state : LookupMount) (table : InodeTable) : LookupMount :=
  { state with tree := { state.tree with table } }

def setPhase (state : LookupMount) (id : Nat) (call : LookupCall)
    (phase : LookupPhase) : LookupMount :=
  { state with lookups := Function.update state.lookups id (some ⟨call, phase⟩) }

/-- The lookup returns. -/
def endLookup (state : LookupMount) (id : Nat) : LookupMount :=
  { state with lookups := Function.update state.lookups id none }

section

variable (settings : ListingSettings) (state : LookupMount) (id : Nat)
  (call : LookupCall)

/-! ## The steps of a lookup -/

/-- With a loaded parent, a transient failure is returned at once. -/
def headAnswered (answer : HubAnswer HeadFileInfo) (probed : Option Nat)
    (now : Time) : LookupMount :=
  match headProbe answer with
  | .file head => (state.setTable
      (insertFileFromHead settings state.table call head probed
        now)).endLookup id
  | .transient =>
      if call.listed then state.endLookup id
      else state.setPhase id call .unloaded
  | .inconclusive =>
      state.setPhase id call (if call.listed then .missed else .unloaded)

/-- The tree endpoint of a repo has a 404 for a path that is not there. -/
def missAnswered (answer : HubAnswer Listing) (now : Time) : LookupMount :=
  match answer with
  | .ok listing =>
      if listing.entries.isEmpty then state.setPhase id call .absent
      else (state.setTable
        (insertDir settings state.table call now)).endLookup id
  | .failed true => state.endLookup id
  | .missing | .failed false => state.setPhase id call .absent

/-- `ensureChildrenLoaded` up to its request. -/
def loadStarted : LookupMount :=
  match state.table.get call.parent with
  | none => state.endLookup id
  | some entry =>
      if entry.kind ≠ .directory then state.endLookup id
      else if entry.childrenLoaded then state.setPhase id call .loadedEarlier
      else state.setPhase id call (.listing entry.fullPath)

def parentAnswered : HubAnswer Listing → LookupMount
  | .ok listing => state.setPhase id call (.listed listing)
  | .missing | .failed _ => state.endLookup id

def listingInstalled (listing : Listing) (now : Time) : LookupMount :=
  match installListing settings listing call.parent now state.table with
  | (.ok true, table) =>
      (state.setTable table).setPhase id call (.installed listing)
  | (.ok false, _) => state.setPhase id call .loadedEarlier
  | (.error _, _) => state.endLookup id

/-- Only a listing that the lookup has installed itself makes a miss certain. -/
def nameFound (fresh : Bool) : LookupMount :=
  if (state.table.lookupChild call.parent call.name).isSome || !fresh then
    state.endLookup id
  else state.setPhase id call .absent

def cached (now : Time) : LookupMount :=
  { state with tree := { state.tree with
      negativeCache := Function.update state.tree.negativeCache call.fullPath
        (some now) } }.endLookup id

end

def step (settings : ListingSettings) (state : LookupMount) :
    LookupEvent → Option LookupMount
  | .tree event => (state.tree.step event).map fun tree => { state with tree }
  | .create parent name kind size mode uid gid now finish =>
      match state.tree.createLocal parent name kind size mode uid gid now
          finish.change with
      | (.error _, _) => none
      | (.ok _, tree) => some { state with tree }
  | .remote remote => some { state with remote }
  | .lookup id parent name =>
      match state.lookups id with
      | some _ => none
      | none => (lookupProbes state.table state.tree.negativeCache parent
          name).map fun call => state.setPhase id call .probing
  | .head id answer probed now =>
      match state.lookups id with
      | some ⟨call, .probing⟩ =>
          some (state.headAnswered settings id call answer probed now)
      | _ => none
  | .missListing id answer now =>
      match state.lookups id with
      | some ⟨call, .missed⟩ =>
          some (state.missAnswered settings id call answer now)
      | _ => none
  | .startLoad id =>
      match state.lookups id with
      | some ⟨call, .unloaded⟩ => some (state.loadStarted id call)
      | _ => none
  | .parentListing id answer =>
      match state.lookups id with
      | some ⟨call, .listing _⟩ => some (state.parentAnswered id call answer)
      | _ => none
  | .install id now =>
      match state.lookups id with
      | some ⟨call, .listed listing⟩ =>
          some (state.listingInstalled settings id call listing now)
      | _ => none
  | .find id =>
      match state.lookups id with
      | some ⟨call, .installed _⟩ => some (state.nameFound id call true)
      | some ⟨call, .loadedEarlier⟩ => some (state.nameFound id call false)
      | _ => none
  | .cache id now =>
      match state.lookups id with
      | some ⟨call, .absent⟩ => some (state.cached id call now)
      | _ => none

/-! ## What is at a path -/

/-- A directory is on the remote when something is below it. -/
def RemoteDir (remote : Remote) (path : Path) : Prop :=
  ∃ other, path ++ ['/'] <+: other ∧ remote other ≠ none

/-- The remote has a file or a directory at the path. -/
def RemoteHas (remote : Remote) (path : Path) : Prop :=
  remote path ≠ none ∨ RemoteDir remote path

def Live (state : LookupMount) (path : Path) : Prop :=
  (state.table.pathToInode path).isSome = true

/-- Neither the remote nor the inode table has anything at the path. -/
def Absent (path : Path) (state : LookupMount) : Prop :=
  ¬ RemoteHas state.remote path ∧ ¬ state.Live path

/-! ## What a step was given -/

/-- What a step was given still holds for the table that it changes. -/
def Fits (state : LookupMount) : LookupEvent → Prop
  | .tree event => state.tree.Fits event
  | .create _ name _ _ _ _ _ _ _ => ValidName name
  | .lookup _ _ name => ValidName name
  | .head id _ _ _ | .missListing id _ _ | .startLoad id =>
      ∀ lookup ∈ state.lookups id, lookup.call.Fits state.table
  | .install id _ => ∀ call listing,
      state.lookups id = some ⟨call, .listed listing⟩ →
      listing.Fits state.table call.parent
  | _ => True

/-- What a HEAD request for a file says of the remote. -/
def HeadTells (remote : Remote) (path : Path) : HubAnswer HeadFileInfo → Prop
  | .ok _ => remote path ≠ none
  | .missing => remote path = none
  | .failed isTransient => isTransient = true

/-- What a listing of the path itself says. -/
def MissTells (remote : Remote) (path : Path) : HubAnswer Listing → Prop
  | .ok listing => listing.entries ≠ [] ↔ RemoteDir remote path
  | .missing => ¬ RemoteDir remote path
  | .failed isTransient => isTransient = true

/-- What a listing of a directory says of the names in it. -/
def ParentTells (settings : ListingSettings) (remote : Remote) (dir : Path) :
    HubAnswer Listing → Prop
  | .ok listing => ∀ name, ValidName name →
      (name ∈ listing.names settings ↔ RemoteHas remote (childPath dir name))
  | .missing => ¬ RemoteDir remote dir
  | .failed isTransient => isTransient = true

/-- The answers of the Hub say what the remote has, and only transient failures
happen. -/
def Answered (settings : ListingSettings) (state : LookupMount) :
    LookupEvent → Prop
  | .head id answer _ _ => ∀ lookup ∈ state.lookups id,
      HeadTells state.remote lookup.call.fullPath answer
  | .missListing id answer _ => ∀ lookup ∈ state.lookups id,
      MissTells state.remote lookup.call.fullPath answer
  | .parentListing id answer => ∀ call dir,
      state.lookups id = some ⟨call, .listing dir⟩ →
      ParentTells settings state.remote dir answer
  | _ => True

/-! ## The steps that leave the verdict right -/

/-- While a lookup waits, the remote does not lose a path that is live, nor
gain one after the parent was listed, and no directory becomes a file after the
HEAD request. -/
def RemoteSpares (state : LookupMount) (remote : Remote) (lookup : Lookup) :
    Prop :=
  let path := lookup.call.fullPath
  match lookup.phase with
  | .probing => lookup.call.listed = true → state.Live path →
      RemoteHas state.remote path → RemoteHas remote path
  | .missed =>
      (state.Live path → RemoteHas state.remote path → RemoteHas remote path) ∧
        (RemoteDir state.remote path → remote path ≠ none →
          RemoteDir remote path)
  | .listed _ | .installed _ => state.Live path → RemoteHas remote path →
      RemoteHas state.remote path
  | _ => True

/-- The parent is still there, and so is the name if the listing has it. -/
def ListedStays (settings : ListingSettings) (table : InodeTable)
    (call : LookupCall) (listing : Listing) : Prop :=
  call.Fits table ∧ table.isDirectory call.parent = true ∧
    (call.name ∈ listing.names settings →
      (table.lookupChild call.parent call.name).isSome = true)

/-- A step that leaves the verdict of the lookup right: with a loaded parent no
hit of its HEAD request is without a size. -/
def Spares (settings : ListingSettings) (id : Nat) (state : LookupMount) :
    LookupEvent → Prop
  | .head other answer _ _ => other = id → ∀ lookup ∈ state.lookups id,
      lookup.call.listed = true → ∀ head, answer = .ok head →
      head.size.isSome = true
  | .remote remote => ∀ lookup ∈ state.lookups id,
      state.RemoteSpares remote lookup
  | .find other => other = id → ∀ call listing,
      state.lookups id = some ⟨call, .installed listing⟩ →
      ListedStays settings state.table call listing
  | _ => True

/-! ## What every step keeps -/

/-- Only the lookup `id` goes on, for the same call. -/
structure Frame (before after : LookupMount) (id : Nat) (call : LookupCall) :
    Prop where
  remote : after.remote = before.remote
  others : ∀ other, other ≠ id → after.lookups other = before.lookups other
  call : ∀ lookup ∈ after.lookups id, lookup.call = call

theorem frame_setPhase (state : LookupMount) (id : Nat) (call : LookupCall)
    (phase : LookupPhase) :
    Frame state (state.setPhase id call phase) id call := by
  refine ⟨rfl, fun _ different => Function.update_of_ne different _ _, ?_⟩
  intro lookup same
  obtain rfl := Option.some.inj ((Function.update_self id _ _).symm.trans same)
  rfl

theorem frame_endLookup (state : LookupMount) (id : Nat) (call : LookupCall) :
    Frame state (state.endLookup id) id call := by
  refine ⟨rfl, fun _ different => Function.update_of_ne different _ _, ?_⟩
  intro lookup same
  have gone : none = some lookup := (Function.update_self id _ _).symm.trans same
  cases gone

theorem Frame.setTable {state after : LookupMount} {id : Nat}
    {call : LookupCall} {table : InodeTable}
    (frame : Frame (state.setTable table) after id call) :
    Frame state after id call :=
  ⟨frame.remote, frame.others, frame.call⟩

section

variable {settings : ListingSettings} {state : LookupMount} {id : Nat}
  {call : LookupCall}

theorem keeps_headAnswered (order : state.table.InOrder)
    (fits : call.Fits state.table) (answer : HubAnswer HeadFileInfo)
    (probed : Option Nat) (now : Time) :
    (state.headAnswered settings id call answer probed now).table.InOrder ∧
      Frame state (state.headAnswered settings id call answer probed now)
        id call := by
  unfold headAnswered
  split
  · exact ⟨inOrder_insertFileFromHead order fits _ _,
      (frame_endLookup _ id call).setTable⟩
  · split
    · exact ⟨order, frame_endLookup state id call⟩
    · exact ⟨order, frame_setPhase state id call _⟩
  · exact ⟨order, frame_setPhase state id call _⟩

theorem keeps_missAnswered (order : state.table.InOrder)
    (fits : call.Fits state.table) (answer : HubAnswer Listing) (now : Time) :
    (state.missAnswered settings id call answer now).table.InOrder ∧
      Frame state (state.missAnswered settings id call answer now) id
        call := by
  unfold missAnswered
  split
  · split
    · exact ⟨order, frame_setPhase state id call _⟩
    · exact ⟨inOrder_insertDir order fits, (frame_endLookup _ id call).setTable⟩
  · exact ⟨order, frame_endLookup state id call⟩
  · exact ⟨order, frame_setPhase state id call _⟩
  · exact ⟨order, frame_setPhase state id call _⟩

theorem keeps_loadStarted (order : state.table.InOrder) :
    (state.loadStarted id call).table.InOrder ∧
      Frame state (state.loadStarted id call) id call := by
  unfold loadStarted
  split
  · exact ⟨order, frame_endLookup state id call⟩
  split
  · exact ⟨order, frame_endLookup state id call⟩
  split
  · exact ⟨order, frame_setPhase state id call _⟩
  · exact ⟨order, frame_setPhase state id call _⟩

theorem keeps_parentAnswered (order : state.table.InOrder)
    (answer : HubAnswer Listing) :
    (state.parentAnswered id call answer).table.InOrder ∧
      Frame state (state.parentAnswered id call answer) id call := by
  cases answer with
  | ok listing => exact ⟨order, frame_setPhase state id call _⟩
  | missing | failed => exact ⟨order, frame_endLookup state id call⟩

theorem keeps_listingInstalled (order : state.table.InOrder)
    {listing : Listing} (fits : listing.Fits state.table call.parent)
    (now : Time) :
    (state.listingInstalled settings id call listing now).table.InOrder ∧
      Frame state (state.listingInstalled settings id call listing now) id
        call := by
  obtain ⟨installed, _⟩ := @keeps_installListing settings listing call.parent
    now state.table order fits
  unfold listingInstalled
  split <;> rename_i result
  · rw [result] at installed
    exact ⟨installed, (frame_setPhase _ id call _).setTable⟩
  · exact ⟨order, frame_setPhase state id call _⟩
  · exact ⟨order, frame_endLookup state id call⟩

theorem keeps_nameFound (order : state.table.InOrder) (fresh : Bool) :
    (state.nameFound id call fresh).table.InOrder ∧
      Frame state (state.nameFound id call fresh) id call := by
  unfold nameFound
  split
  · exact ⟨order, frame_endLookup state id call⟩
  · exact ⟨order, frame_setPhase state id call _⟩

end

structure Keeps (before after : LookupMount) (event : LookupEvent) : Prop where
  order : after.table.InOrder
  remote : (∀ remote, event ≠ .remote remote) → after.remote = before.remote
  others : ∀ id, event.owner ≠ some id → after.lookups id = before.lookups id
  call : ∀ id, (∀ parent name, event ≠ .lookup id parent name) →
    ∀ lookup ∈ after.lookups id,
      ∃ old ∈ before.lookups id, lookup.call = old.call

theorem keeps_of_frame {before after : LookupMount} {event : LookupEvent}
    {id : Nat} {call : LookupCall} {phase : LookupPhase}
    (own : event.owner = some id)
    (found : before.lookups id = some ⟨call, phase⟩)
    (kept : after.table.InOrder ∧ Frame before after id call) :
    Keeps before after event := by
  obtain ⟨order, frame⟩ := kept
  have others : ∀ other, event.owner ≠ some other →
      after.lookups other = before.lookups other := by
    intro other different
    apply frame.others
    rintro rfl
    exact different own
  refine ⟨order, fun _ => frame.remote, others, ?_⟩
  intro other _ lookup same
  by_cases here : other = id
  · rw [here] at same ⊢
    exact ⟨_, found, frame.call lookup same⟩
  · rw [frame.others other here] at same
    exact ⟨lookup, same, rfl⟩

/-- A change outside the lookups. -/
theorem keeps_of_same {before after : LookupMount} {event : LookupEvent}
    (order : after.table.InOrder)
    (remote : (∀ remote, event ≠ .remote remote) →
      after.remote = before.remote)
    (lookups : after.lookups = before.lookups) :
    Keeps before after event := by
  refine ⟨order, remote, fun id _ => congrFun lookups id, ?_⟩
  intro id _ lookup same
  rw [lookups] at same
  exact ⟨lookup, same, rfl⟩

theorem keeps_step {settings : ListingSettings} {state next : LookupMount}
    {event : LookupEvent} (order : state.table.InOrder)
    (fits : state.Fits event) (stepped : step settings state event = some next) :
    Keeps state next event := by
  unfold step at stepped
  cases event with
  | tree event =>
      obtain ⟨tree, ran, rfl⟩ := Option.map_eq_some_iff.mp stepped
      exact keeps_of_same (MountedTree.inOrder_step order fits ran)
        (fun _ => rfl) rfl
  | create parent name kind size mode uid gid now finish =>
      dsimp only at stepped
      split at stepped <;> rename_i created
      · cases stepped
      · obtain rfl := Option.some.inj stepped
        obtain ⟨_, _, _, _, _, _, _, holds⟩ :=
          MountedTree.holds_createLocal order fits created finish.same
        exact keeps_of_same holds.order (fun _ => rfl) rfl
  | remote remote =>
      obtain rfl := Option.some.inj stepped
      exact keeps_of_same order (fun other => absurd rfl (other remote)) rfl
  | lookup id parent name =>
      dsimp only at stepped
      split at stepped
      · cases stepped
      · obtain ⟨call, _, rfl⟩ := Option.map_eq_some_iff.mp stepped
        have frame := frame_setPhase state id call .probing
        refine ⟨order, fun _ => rfl, ?_, ?_⟩
        · intro other different
          apply frame.others
          rintro rfl
          exact different rfl
        · intro other notStarted lookup same
          have different : other ≠ id := by
            rintro rfl
            exact notStarted parent name rfl
          rw [frame.others other different] at same
          exact ⟨lookup, same, rfl⟩
  | head id answer probed now =>
      dsimp only at stepped
      split at stepped <;> rename_i found
      · obtain rfl := Option.some.inj stepped
        exact keeps_of_frame rfl found (keeps_headAnswered order (fits _ found) _ _ _)
      · cases stepped
  | missListing id answer now =>
      dsimp only at stepped
      split at stepped <;> rename_i found
      · obtain rfl := Option.some.inj stepped
        exact keeps_of_frame rfl found (keeps_missAnswered order (fits _ found) _ _)
      · cases stepped
  | startLoad id =>
      dsimp only at stepped
      split at stepped <;> rename_i found
      · obtain rfl := Option.some.inj stepped
        exact keeps_of_frame rfl found (keeps_loadStarted order)
      · cases stepped
  | parentListing id answer =>
      dsimp only at stepped
      split at stepped <;> rename_i found
      · obtain rfl := Option.some.inj stepped
        exact keeps_of_frame rfl found (keeps_parentAnswered order answer)
      · cases stepped
  | install id now =>
      dsimp only at stepped
      split at stepped <;> rename_i found
      · obtain rfl := Option.some.inj stepped
        exact keeps_of_frame rfl found
          (keeps_listingInstalled order (fits _ _ found) now)
      · cases stepped
  | find id =>
      dsimp only at stepped
      split at stepped <;> rename_i found
      · obtain rfl := Option.some.inj stepped
        exact keeps_of_frame rfl found (keeps_nameFound order true)
      · obtain rfl := Option.some.inj stepped
        exact keeps_of_frame rfl found (keeps_nameFound order false)
      · cases stepped
  | cache id now =>
      dsimp only at stepped
      split at stepped <;> rename_i found
      · obtain rfl := Option.some.inj stepped
        obtain ⟨_, others, same⟩ := frame_endLookup state id _
        exact keeps_of_frame rfl found ⟨order, rfl, others, same⟩
      · cases stepped

/-! ## A lookup that has not seen the path absent -/

/-- What is known while the path has always been somewhere. -/
def Knows (settings : ListingSettings) (call : LookupCall) (remote : Remote) :
    LookupPhase → Prop
  | .probing => call.listed = true → RemoteHas remote call.fullPath
  | .missed => RemoteDir remote call.fullPath
  | .unloaded | .loadedEarlier => True
  | .listing dir => childPath dir call.name = call.fullPath
  | .listed listing | .installed listing =>
      call.name ∈ listing.names settings ∨ ¬ RemoteHas remote call.fullPath
  | .absent => False

structure Waiting (settings : ListingSettings) (id : Nat) (call : LookupCall)
    (state : LookupMount) : Prop where
  order : state.table.InOrder
  valid : ValidName call.name
  present : ¬ Absent call.fullPath state
  knows : ∀ lookup ∈ state.lookups id, lookup.call = call ∧
    Knows settings call state.remote lookup.phase

/-- The lookup returns or goes on. -/
theorem knows_update {settings : ListingSettings} {call : LookupCall}
    {remote : Remote} {result : Option Lookup}
    (knows : ∀ lookup ∈ result, lookup.call = call ∧
      Knows settings call remote lookup.phase) (lookups : Nat → Option Lookup)
    (id : Nat) :
    ∀ lookup ∈ Function.update lookups id result id, lookup.call = call ∧
      Knows settings call remote lookup.phase := by
  rw [Function.update_self]
  exact knows

section

variable {settings : ListingSettings} {state : LookupMount} {id : Nat}
  {call : LookupCall}

theorem knows_setPhase {phase : LookupPhase}
    (knows : Knows settings call state.remote phase) :
    ∀ lookup ∈ (state.setPhase id call phase).lookups id,
      lookup.call = call ∧ Knows settings call state.remote lookup.phase := by
  apply knows_update
  intro lookup same
  obtain rfl := Option.some.inj same
  exact ⟨rfl, knows⟩

theorem knows_endLookup {state : LookupMount} (remote : Remote) :
    ∀ lookup ∈ (state.endLookup id).lookups id,
      lookup.call = call ∧ Knows settings call remote lookup.phase :=
  knows_update (by simp) state.lookups id

/-- A HEAD request that misses a present path has missed a directory. -/
theorem knows_headAnswered {answer : HubAnswer HeadFileInfo}
    (knows : Knows settings call state.remote .probing)
    (answered : HeadTells state.remote call.fullPath answer)
    (sized : call.listed = true → ∀ head, answer = .ok head →
      head.size.isSome = true) (probed : Option Nat) (now : Time) :
    ∀ lookup ∈
        (state.headAnswered settings id call answer probed now).lookups id,
      lookup.call = call ∧ Knows settings call state.remote lookup.phase := by
  unfold headAnswered
  split <;> rename_i probe
  · exact knows_endLookup _
  · split
    · exact knows_endLookup _
    · exact knows_setPhase trivial
  · apply knows_setPhase
    split <;> rename_i loaded
    · cases answer with
      | ok head =>
          have file : headProbe (.ok head) = .file head :=
            if_pos (sized loaded head rfl)
          rw [file] at probe
          cases probe
      | missing => exact (knows loaded).resolve_left (not_not.mpr answered)
      | failed isTransient =>
          have again : headProbe (.failed isTransient) = .transient :=
            if_pos answered
          rw [again] at probe
          cases probe
    · trivial

/-- The listing of a directory is not empty. -/
theorem knows_missAnswered {answer : HubAnswer Listing}
    (knows : Knows settings call state.remote .missed)
    (answered : MissTells state.remote call.fullPath answer) (now : Time) :
    ∀ lookup ∈ (state.missAnswered settings id call answer now).lookups id,
      lookup.call = call ∧ Knows settings call state.remote lookup.phase := by
  unfold missAnswered
  cases answer with
  | ok listing =>
      dsimp only
      split <;> rename_i empty
      · exact absurd (List.isEmpty_iff.mp empty) (answered.mpr knows)
      · exact knows_endLookup _
  | missing => exact absurd knows answered
  | failed isTransient =>
      have again : isTransient = true := answered
      rw [again]
      exact knows_endLookup _

theorem knows_loadStarted (fits : call.Fits state.table) :
    ∀ lookup ∈ (state.loadStarted id call).lookups id,
      lookup.call = call ∧ Knows settings call state.remote lookup.phase := by
  unfold loadStarted
  split <;> rename_i found
  · exact knows_endLookup _
  split
  · exact knows_endLookup _
  split
  · exact knows_setPhase trivial
  · exact knows_setPhase (fits.2 _ found).symm

theorem knows_parentAnswered {dir : Path} {answer : HubAnswer Listing}
    (valid : ValidName call.name)
    (knows : Knows settings call state.remote (.listing dir))
    (answered : ParentTells settings state.remote dir answer) :
    ∀ lookup ∈ (state.parentAnswered id call answer).lookups id,
      lookup.call = call ∧ Knows settings call state.remote lookup.phase := by
  cases answer with
  | ok listing =>
      apply knows_setPhase
      have listed := answered call.name valid
      rw [knows] at listed
      by_cases isListed : call.name ∈ listing.names settings
      · exact Or.inl isListed
      · exact Or.inr fun has => isListed (listed.mpr has)
  | missing | failed => exact knows_endLookup _

theorem knows_listingInstalled {listing : Listing}
    (knows : Knows settings call state.remote (.listed listing))
    (now : Time) :
    ∀ lookup ∈
        (state.listingInstalled settings id call listing now).lookups id,
      lookup.call = call ∧ Knows settings call state.remote lookup.phase := by
  unfold listingInstalled
  split
  · exact knows_setPhase knows
  · exact knows_setPhase trivial
  · exact knows_endLookup _

/-- A path that is not live is found missing, when the parent is there. -/
theorem not_live_of_not_found (order : state.table.InOrder)
    (fits : call.Fits state.table)
    (directory : state.table.isDirectory call.parent = true)
    (missing : state.table.lookupChild call.parent call.name = none) :
    ¬ state.Live call.fullPath := by
  obtain ⟨entry, found, isDirectory⟩ :=
    InodeTable.isDirectory_iff.mp directory
  have free := (order.wf.lookupChild_none found).mp missing
  have unmapped := order.wf.path_of_free found isDirectory fits.1 free
  rw [← fits.2 entry found] at unmapped
  unfold Live
  rw [unmapped]
  exact Bool.false_ne_true

theorem knows_nameFound {listing : Listing} (order : state.table.InOrder)
    (present : ¬ Absent call.fullPath state)
    (knows : Knows settings call state.remote (.installed listing))
    (stays : ListedStays settings state.table call listing) :
    ∀ lookup ∈ (state.nameFound id call true).lookups id,
      lookup.call = call ∧ Knows settings call state.remote lookup.phase := by
  obtain ⟨fits, directory, found⟩ := stays
  unfold nameFound
  split <;> rename_i missing
  · exact knows_endLookup _
  · simp only [Bool.not_true, Bool.or_false, Bool.not_eq_true,
      Option.isSome_eq_false_iff, Option.isNone_iff_eq_none] at missing
    have notListed : call.name ∉ listing.names settings := by
      intro listed
      have isFound := found listed
      rw [missing] at isFound
      cases isFound
    exact absurd ⟨knows.resolve_left notListed,
      not_live_of_not_found order fits directory missing⟩ present

end

/-- The remote changes under a lookup that waits. -/
theorem knows_remote {settings : ListingSettings} {state : LookupMount}
    {call : LookupCall} {phase : LookupPhase} {remote : Remote}
    (knows : Knows settings call state.remote phase)
    (present : ¬ Absent call.fullPath state)
    (still : ¬ Absent call.fullPath { state with remote })
    (spares : state.RemoteSpares remote ⟨call, phase⟩) :
    Knows settings call remote phase := by
  -- A path that the remote loses or gains is not live.
  have kept : (state.Live call.fullPath → RemoteHas state.remote call.fullPath →
        RemoteHas remote call.fullPath) →
      RemoteHas state.remote call.fullPath →
      RemoteHas remote call.fullPath := by
    intro spared has
    by_cases live : state.Live call.fullPath
    · exact spared live has
    · exact not_not.mp fun gone => still ⟨gone, live⟩
  have missed : (state.Live call.fullPath → RemoteHas remote call.fullPath →
        RemoteHas state.remote call.fullPath) →
      ¬ RemoteHas state.remote call.fullPath →
      ¬ RemoteHas remote call.fullPath := by
    intro spared lacks has
    by_cases live : state.Live call.fullPath
    · exact lacks (spared live has)
    · exact present ⟨lacks, live⟩
  cases phase with
  | probing => exact fun listed => kept (spares listed) (knows listed)
  | missed =>
      rcases kept spares.1 (Or.inr knows) with file | dir
      · exact spares.2 knows file
      · exact dir
  | unloaded | loadedEarlier => trivial
  | listing dir => exact knows
  | listed listing | installed listing => exact knows.imp_right (missed spares)
  | absent => exact knows

theorem knows_own {settings : ListingSettings} {state next : LookupMount}
    {id : Nat} {call : LookupCall} {event : LookupEvent}
    (waiting : Waiting settings id call state) (own : event.owner = some id)
    (notStarted : ∀ parent name, event ≠ .lookup id parent name)
    (fits : state.Fits event) (answered : Answered settings state event)
    (spares : Spares settings id state event)
    (stepped : step settings state event = some next) :
    ∀ lookup ∈ next.lookups id, lookup.call = call ∧
      Knows settings call state.remote lookup.phase := by
  unfold step at stepped
  cases event with
  | tree | create | remote => cases own
  | lookup other parent name =>
      obtain rfl := Option.some.inj own
      exact absurd rfl (notStarted parent name)
  | head other answer probed now =>
      obtain rfl := Option.some.inj own
      dsimp only at stepped
      split at stepped <;> rename_i found
      · obtain rfl := Option.some.inj stepped
        obtain ⟨rfl, knows⟩ := waiting.knows _ found
        exact knows_headAnswered knows (answered _ found)
          (spares rfl _ found) probed now
      · cases stepped
  | missListing other answer now =>
      obtain rfl := Option.some.inj own
      dsimp only at stepped
      split at stepped <;> rename_i found
      · obtain rfl := Option.some.inj stepped
        obtain ⟨rfl, knows⟩ := waiting.knows _ found
        exact knows_missAnswered knows (answered _ found) now
      · cases stepped
  | startLoad other =>
      obtain rfl := Option.some.inj own
      dsimp only at stepped
      split at stepped <;> rename_i found
      · obtain rfl := Option.some.inj stepped
        obtain ⟨rfl, _⟩ := waiting.knows _ found
        exact knows_loadStarted (fits _ found)
      · cases stepped
  | parentListing other answer =>
      obtain rfl := Option.some.inj own
      dsimp only at stepped
      split at stepped <;> rename_i found
      · obtain rfl := Option.some.inj stepped
        obtain ⟨rfl, knows⟩ := waiting.knows _ found
        exact knows_parentAnswered waiting.valid knows (answered _ _ found)
      · cases stepped
  | install other now =>
      obtain rfl := Option.some.inj own
      dsimp only at stepped
      split at stepped <;> rename_i found
      · obtain rfl := Option.some.inj stepped
        obtain ⟨rfl, knows⟩ := waiting.knows _ found
        exact knows_listingInstalled knows now
      · cases stepped
  | find other =>
      obtain rfl := Option.some.inj own
      dsimp only at stepped
      split at stepped <;> rename_i found
      · obtain rfl := Option.some.inj stepped
        obtain ⟨rfl, knows⟩ := waiting.knows _ found
        exact knows_nameFound waiting.order waiting.present knows
          (spares rfl _ _ found)
      · obtain rfl := Option.some.inj stepped
        unfold nameFound
        rw [Bool.not_false, Bool.or_true, if_pos rfl]
        exact knows_endLookup _
      · cases stepped
  | cache other now =>
      obtain rfl := Option.some.inj own
      dsimp only at stepped
      split at stepped
      · obtain rfl := Option.some.inj stepped
        exact knows_endLookup _
      · cases stepped

/-- Every step leaves the lookup right, unless the path is absent now. -/
theorem waiting_step {settings : ListingSettings} {state next : LookupMount}
    {id : Nat} {call : LookupCall} {event : LookupEvent}
    (waiting : Waiting settings id call state)
    (notStarted : ∀ parent name, event ≠ .lookup id parent name)
    (fits : state.Fits event) (answered : Answered settings state event)
    (spares : Spares settings id state event)
    (stepped : step settings state event = some next) :
    Waiting settings id call next ∨ Absent call.fullPath next := by
  by_cases absent : Absent call.fullPath next
  · exact Or.inr absent
  left
  have keeps := keeps_step waiting.order fits stepped
  refine ⟨keeps.order, waiting.valid, absent, ?_⟩
  by_cases changed : ∃ remote, event = .remote remote
  · obtain ⟨remote, rfl⟩ := changed
    obtain rfl := Option.some.inj stepped
    intro lookup found
    obtain ⟨rfl, knows⟩ := waiting.knows lookup found
    exact ⟨rfl, knows_remote knows waiting.present absent
      (spares lookup found)⟩
  · have sameRemote := keeps.remote fun remote same => changed ⟨remote, same⟩
    rw [sameRemote]
    by_cases own : event.owner = some id
    · exact knows_own waiting own notStarted fits answered spares stepped
    · rw [keeps.others id own]
      exact waiting.knows

/-! ## The verdict of a lookup -/

/-- A lookup that goes on to the Hub, and with a loaded parent has found no
child under the name. -/
theorem lookupProbes_eq_some {table : InodeTable}
    {negativeCache : NegativeCache} {parent : Ino} {name : Name}
    {call : LookupCall}
    (probes : lookupProbes table negativeCache parent name = some call) :
    ∃ parentEntry, table.get parent = some parentEntry ∧
      parentEntry.kind = .directory ∧
      call = ⟨parent, name, childPath parentEntry.fullPath name,
        parentEntry.childrenLoaded⟩ ∧
      (call.listed = true → table.lookupChild parent name = none) := by
  unfold lookupProbes at probes
  split at probes <;> rename_i found
  · cases probes
  rename_i parentEntry
  split at probes <;> rename_i directory
  · cases probes
  refine ⟨parentEntry, found, not_not.mp directory, ?_⟩
  dsimp only at probes
  split at probes <;> rename_i looked
  · split at probes <;> rename_i served
    · cases probes
    split at probes
    · cases probes
    obtain rfl := Option.some.inj probes
    refine ⟨rfl, fun loaded => ?_⟩
    exact absurd (Bool.or_eq_true_iff.mpr (Or.inr loaded)) served
  · split at probes
    · cases probes
    split at probes
    · cases probes
    obtain rfl := Option.some.inj probes
    exact ⟨rfl, fun _ => looked⟩

/-- A lookup that starts knows that its path is not live when the parent is
loaded. -/
theorem waiting_started {settings : ListingSettings}
    {start begun : LookupMount} {id : Nat} {parent : Ino} {name : Name}
    (order : start.table.InOrder) (valid : ValidName name)
    (started : step settings start (.lookup id parent name) = some begun) :
    ∃ call, begun.lookups id = some ⟨call, .probing⟩ ∧
      (Waiting settings id call begun ∨ Absent call.fullPath begun) := by
  unfold step at started
  dsimp only at started
  split at started
  · cases started
  obtain ⟨call, probes, rfl⟩ := Option.map_eq_some_iff.mp started
  refine ⟨call, Function.update_self _ _ _, ?_⟩
  obtain ⟨parentEntry, found, directory, rfl, free⟩ :=
    lookupProbes_eq_some probes
  by_cases absent : Absent (childPath parentEntry.fullPath name)
      (start.setPhase id ⟨parent, name, childPath parentEntry.fullPath name,
        parentEntry.childrenLoaded⟩ .probing)
  · exact Or.inr absent
  refine Or.inl ⟨order, valid, absent, knows_setPhase ?_⟩
  intro listed
  by_contra lacks
  have fits : LookupCall.Fits start.table ⟨parent, name,
      childPath parentEntry.fullPath name, parentEntry.childrenLoaded⟩ := by
    refine ⟨valid, fun entry again => ?_⟩
    obtain rfl := Option.some.inj (found.symm.trans again)
    rfl
  exact absent ⟨lacks, @not_live_of_not_found start _ order fits
    (InodeTable.isDirectory_iff.mpr ⟨parentEntry, found, directory⟩)
    (free listed)⟩

/-- A request of the lookup fails, and may go well later. -/
def FailsTransiently (id : Nat) : LookupEvent → Prop
  | .head other (.failed true) _ _ | .missListing other (.failed true) _
  | .parentListing other (.failed true) => other = id
  | _ => False

/-- The lookup has put its own listing of the parent into the table. -/
def HasInstalled (id : Nat) (state : LookupMount) : Prop :=
  ∃ call listing, state.lookups id = some ⟨call, .installed listing⟩

/-- Not decided, and without a listing of its own in the table. -/
def Undecided : LookupPhase → Prop
  | .unloaded | .listing _ | .listed _ | .loadedEarlier => True
  | .probing | .missed | .installed _ | .absent => False

structure Doubtful (id : Nat) (state : LookupMount) : Prop where
  order : state.table.InOrder
  undecided : ∀ lookup ∈ state.lookups id, Undecided lookup.phase

section

variable {state : LookupMount} {id : Nat} {call : LookupCall}

theorem undecided_setPhase {phase : LookupPhase} (undecided : Undecided phase) :
    ∀ lookup ∈ (state.setPhase id call phase).lookups id,
      Undecided lookup.phase := by
  intro lookup same
  obtain rfl := Option.some.inj ((Function.update_self id _ _).symm.trans same)
  exact undecided

theorem undecided_endLookup :
    ∀ lookup ∈ (state.endLookup id).lookups id, Undecided lookup.phase := by
  intro lookup same
  have gone : none = some lookup := (Function.update_self id _ _).symm.trans same
  cases gone

end

/-- A transient failure leaves the lookup in doubt. -/
theorem undecided_of_failed {settings : ListingSettings}
    {state next : LookupMount} {id : Nat} {event : LookupEvent}
    (failed : FailsTransiently id event)
    (stepped : step settings state event = some next) :
    ∀ lookup ∈ next.lookups id, Undecided lookup.phase := by
  unfold FailsTransiently at failed
  unfold step at stepped
  split at failed
  · obtain rfl := failed
    dsimp only at stepped
    split at stepped
    · obtain rfl := Option.some.inj stepped
      have again : headProbe (.failed true) = .transient := rfl
      unfold headAnswered
      rw [again]
      dsimp only
      split
      · exact undecided_endLookup
      · exact undecided_setPhase trivial
    · cases stepped
  · obtain rfl := failed
    dsimp only at stepped
    split at stepped
    · obtain rfl := Option.some.inj stepped
      exact undecided_endLookup
    · cases stepped
  · obtain rfl := failed
    dsimp only at stepped
    split at stepped
    · obtain rfl := Option.some.inj stepped
      exact undecided_endLookup
    · cases stepped
  · exact failed.elim

theorem undecided_own {settings : ListingSettings} {state next : LookupMount}
    {id : Nat} {event : LookupEvent} (doubtful : Doubtful id state) (own : event.owner = some id)
    (notStarted : ∀ parent name, event ≠ .lookup id parent name)
    (stepped : step settings state event = some next) :
    (∀ lookup ∈ next.lookups id, Undecided lookup.phase) ∨
      HasInstalled id next := by
  unfold step at stepped
  cases event with
  | tree | create | remote => cases own
  | lookup other parent name =>
      obtain rfl := Option.some.inj own
      exact absurd rfl (notStarted parent name)
  | head other answer probed now =>
      obtain rfl := Option.some.inj own
      dsimp only at stepped
      split at stepped <;> rename_i found
      · exact (doubtful.undecided _ found).elim
      · cases stepped
  | missListing other answer now =>
      obtain rfl := Option.some.inj own
      dsimp only at stepped
      split at stepped <;> rename_i found
      · exact (doubtful.undecided _ found).elim
      · cases stepped
  | startLoad other =>
      obtain rfl := Option.some.inj own
      dsimp only at stepped
      split at stepped <;> rename_i found
      · obtain rfl := Option.some.inj stepped
        left
        unfold loadStarted
        split
        · exact undecided_endLookup
        split
        · exact undecided_endLookup
        split
        · exact undecided_setPhase trivial
        · exact undecided_setPhase trivial
      · cases stepped
  | parentListing other answer =>
      obtain rfl := Option.some.inj own
      dsimp only at stepped
      split at stepped <;> rename_i found
      · obtain rfl := Option.some.inj stepped
        left
        cases answer with
        | ok listing => exact undecided_setPhase trivial
        | missing | failed => exact undecided_endLookup
      · cases stepped
  | install other now =>
      obtain rfl := Option.some.inj own
      dsimp only at stepped
      split at stepped <;> rename_i found
      · obtain rfl := Option.some.inj stepped
        unfold listingInstalled
        split
        · exact Or.inr ⟨_, _, Function.update_self _ _ _⟩
        · exact Or.inl (undecided_setPhase trivial)
        · exact Or.inl undecided_endLookup
      · cases stepped
  | find other =>
      obtain rfl := Option.some.inj own
      dsimp only at stepped
      split at stepped <;> rename_i found
      · exact (doubtful.undecided _ found).elim
      · obtain rfl := Option.some.inj stepped
        left
        unfold nameFound
        rw [Bool.not_false, Bool.or_true, if_pos rfl]
        exact undecided_endLookup
      · cases stepped
  | cache other now =>
      obtain rfl := Option.some.inj own
      dsimp only at stepped
      split at stepped <;> rename_i found
      · exact (doubtful.undecided _ found).elim
      · cases stepped

theorem doubtful_step {settings : ListingSettings} {state next : LookupMount}
    {id : Nat} {event : LookupEvent} (doubtful : Doubtful id state)
    (notStarted : ∀ parent name, event ≠ .lookup id parent name)
    (fits : state.Fits event)
    (stepped : step settings state event = some next) :
    Doubtful id next ∨ HasInstalled id next := by
  have keeps := keeps_step doubtful.order fits stepped
  by_cases own : event.owner = some id
  · rcases undecided_own doubtful own notStarted stepped with
      undecided | installed
    · exact Or.inl ⟨keeps.order, undecided⟩
    · exact Or.inr installed
  · refine Or.inl ⟨keeps.order, ?_⟩
    rw [keeps.others id own]
    exact doubtful.undecided

/-! ## Missed names over whole runs -/

theorem order_of_run {settings : ListingSettings} {state final : LookupMount}
    {events : List LookupEvent} (order : state.table.InOrder)
    (fits : AllSteps (step settings) Fits state events)
    (ran : exec (step settings) state events = some final) :
    final.table.InOrder :=
  @exec_invariant _ _ (step settings) Fits (fun state => state.table.InOrder)
    (fun _ _ _ inOrder fit stepped => (keeps_step inOrder fit stepped).order)
    state final events order fits ran

/-- A lookup that has not returned is still the one that was started. -/
theorem call_of_run {settings : ListingSettings} {begun final : LookupMount}
    {id : Nat} {call : LookupCall} {phase : LookupPhase}
    {events : List LookupEvent} (order : begun.table.InOrder)
    (started : begun.lookups id = some ⟨call, phase⟩)
    (fits : AllSteps (step settings) Fits begun events)
    (once : ∀ event ∈ events, ∀ parent name, event ≠ .lookup id parent name)
    (ran : exec (step settings) begun events = some final) :
    ∀ lookup ∈ final.lookups id, lookup.call = call := by
  have kept : final.table.InOrder ∧
      ∀ lookup ∈ final.lookups id, lookup.call = call := by
    apply exec_invariant _ _ (fits.and (allSteps_of_forall once)) ran
    · rintro state event next ⟨inOrder, same⟩ ⟨fit, notStarted⟩ stepped
      have keeps := keeps_step inOrder fit stepped
      refine ⟨keeps.order, ?_⟩
      intro lookup found
      obtain ⟨old, before, isCall⟩ := keeps.call id notStarted lookup found
      exact isCall.trans (same old before)
    · refine ⟨order, ?_⟩
      intro lookup found
      obtain rfl := Option.some.inj (started.symm.trans found)
      rfl
  exact kept.2

/-- The path was absent at some moment of the run, and when a request of the
lookup failed, the lookup has installed a listing of the parent later. -/
structure RightMiss (settings : ListingSettings) (id : Nat) (path : Path)
    (begun : LookupMount) (events : List LookupEvent) : Prop where
  absent : Sometime (step settings) (Absent path) begun events
  settled : ∀ earlier event later, events = earlier ++ event :: later →
    FailsTransiently id event → ∃ middle,
      exec (step settings) begun (earlier ++ [event]) = some middle ∧
        Sometime (step settings) (HasInstalled id) middle later

/-- After a failure only a listing of its own lets the lookup fill the negative
cache. -/
theorem installed_of_failed {settings : ListingSettings}
    {begun final : LookupMount} {id : Nat} {lookup : Lookup}
    {earlier later : List LookupEvent} {event : LookupEvent}
    (order : begun.table.InOrder)
    (fits : AllSteps (step settings) Fits begun (earlier ++ event :: later))
    (once : ∀ other ∈ earlier ++ event :: later, ∀ parent name,
      other ≠ .lookup id parent name)
    (failed : FailsTransiently id event)
    (ran : exec (step settings) begun (earlier ++ event :: later) = some final)
    (found : final.lookups id = some lookup)
    (decided : ¬ Undecided lookup.phase) : ∃ middle,
      exec (step settings) begun (earlier ++ [event]) = some middle ∧
        Sometime (step settings) (HasInstalled id) middle later := by
  rw [List.append_cons] at fits ran once
  obtain ⟨middle, ranFirst, ranRest⟩ := exec_append_iff.mp ran
  obtain ⟨before, ranEarlier, ranEvent⟩ := exec_append_iff.mp ranFirst
  obtain ⟨next, stepped, ended⟩ := exec_cons_iff.mp ranEvent
  obtain rfl := Option.some.inj ended
  refine ⟨next, ranFirst, ?_⟩
  have doubtful : Doubtful id next := by
    refine ⟨?_, undecided_of_failed failed stepped⟩
    exact order_of_run order fits.first ranFirst
  have afterwards := exec_invariant_or_sometime
    (fun state event next doubtful good stepped =>
      @doubtful_step settings state next id event doubtful good.2 good.1
        stepped) (Or.inl doubtful)
    ((fits.rest ranFirst).and (allSteps_of_forall fun other member =>
      once other (List.mem_append_right _ member))) ranRest
  rcases afterwards with still | installed
  · exact absurd (still.undecided lookup found) decided
  · exact installed

/-- A lookup that every step spares fills the negative cache with a right
answer. -/
theorem rightMiss_of_cached {settings : ListingSettings}
    {start begun final : LookupMount} {id : Nat} {parent : Ino} {name : Name}
    {call : LookupCall} {events : List LookupEvent}
    (order : start.table.InOrder) (valid : ValidName name)
    (started : step settings start (.lookup id parent name) = some begun)
    (good : AllSteps (step settings) (fun state event => state.Fits event ∧
      Answered settings state event ∧ Spares settings id state event) begun
      events)
    (once : ∀ event ∈ events, ∀ parent name, event ≠ .lookup id parent name)
    (ran : exec (step settings) begun events = some final)
    (cached : final.lookups id = some ⟨call, .absent⟩) :
    RightMiss settings id call.fullPath begun events := by
  obtain ⟨first, probing, waiting⟩ := waiting_started order valid started
  have begunOrder := (@keeps_step settings start begun
    (.lookup id parent name) order valid started).order
  have fits : AllSteps (step settings) Fits begun events :=
    allSteps_mono (fun _ _ all => all.1) good
  obtain rfl : call = first :=
    call_of_run begunOrder probing fits once ran _ cached
  constructor
  · have atEnd := exec_invariant_or_sometime
      (fun state event next waiting good stepped =>
        @waiting_step settings state next id call event waiting good.2
          good.1.1 good.1.2.1 good.1.2.2 stepped) waiting
      (good.and (allSteps_of_forall once)) ran
    rcases atEnd with still | absent
    · exact (still.knows _ cached).2.elim
    · exact absent
  · rintro earlier event later rfl failed
    exact installed_of_failed begunOrder fits once failed ran cached
      fun undecided => undecided

/-! ## A hit without a size -/

def plainMount : ListingSettings := ⟨false, 0, 493, 420, 0, 0⟩

def nothingIn (dir : Path) : Listing := ⟨dir, [], fun _ => none⟩

/-- The root is loaded, and the Hub had nothing in it. -/
def emptyRoot (remote : Remote) : LookupMount :=
  { tree :=
      { table := (installListing plainMount (nothingIn []) rootInode 1 .new).2
        negativeCache := fun _ => none }
    remote
    lookups := fun _ => none }

theorem inOrder_emptyRoot (remote : Remote) :
    (emptyRoot remote).table.InOrder :=
  (@keeps_installListing plainMount (nothingIn []) rootInode 1 _
    InodeTable.inOrder_new (by decide)).1

def callOfA : LookupCall := ⟨rootInode, ['a'], ['a'], true⟩

def lookingForA (remote : Remote) (phase : LookupPhase) : LookupMount :=
  (emptyRoot remote).setPhase 0 callOfA phase

/-- The HEAD request for `a` and the listing of `a` are answered. -/
def answers (head : HubAnswer HeadFileInfo) : List LookupEvent :=
  [.head 0 head none 2, .missListing 0 (.ok (nothingIn ['a'])) 3]

theorem lookup_of_a {remote : Remote} {phase : LookupPhase} {lookup : Lookup}
    (found : lookup ∈ (lookingForA remote phase).lookups 0) :
    lookup = ⟨callOfA, phase⟩ :=
  (Option.some.inj found).symm

theorem fits_of_a (remote : Remote) (phase : LookupPhase) :
    callOfA.Fits (lookingForA remote phase).table := by
  have fits : callOfA.Fits (emptyRoot fun _ => none).table := by decide
  exact fits

theorem step_head {remote : Remote} {head : HubAnswer HeadFileInfo}
    (missed : headProbe head = .inconclusive) :
    step plainMount (lookingForA remote .probing) (.head 0 head none 2) =
      some (lookingForA remote .missed) := by
  have answered : (lookingForA remote .probing).headAnswered plainMount 0
      callOfA head none 2 = lookingForA remote .missed := by
    unfold headAnswered
    rw [missed]
    exact congrArg (LookupMount.mk _ _) (Function.update_idem _ _ _)
  exact congrArg some answered

theorem step_missListing (remote : Remote) :
    step plainMount (lookingForA remote .missed)
      (.missListing 0 (.ok (nothingIn ['a'])) 3) =
        some (lookingForA remote .absent) := by
  have answered : (lookingForA remote .missed).missAnswered plainMount 0
      callOfA (.ok (nothingIn ['a'])) 3 = lookingForA remote .absent :=
    congrArg (LookupMount.mk _ _) (Function.update_idem _ _ _)
  exact congrArg some answered

theorem ran_answers {remote : Remote} {head : HubAnswer HeadFileInfo}
    (missed : headProbe head = .inconclusive) :
    exec (step plainMount) (lookingForA remote .probing) (answers head) =
      some (lookingForA remote .absent) := by
  apply exec_cons_iff.mpr
  refine ⟨_, step_head missed, ?_⟩
  exact exec_cons_iff.mpr ⟨_, step_missListing remote, rfl⟩

/-- The answers fit the table, and say what the remote has. -/
theorem answered_answers {remote : Remote} {head : HubAnswer HeadFileInfo}
    (missed : headProbe head = .inconclusive)
    (tells : HeadTells remote ['a'] head) (noDir : ¬ RemoteDir remote ['a']) :
    AllSteps (step plainMount) (fun state event =>
      state.Fits event ∧ Answered plainMount state event)
      (lookingForA remote .probing) (answers head) := by
  refine ⟨⟨?_, ?_⟩, ?_⟩
  · intro lookup found
    rw [lookup_of_a found]
    exact fits_of_a remote _
  · intro lookup found
    rw [lookup_of_a found]
    exact tells
  intro next stepped
  obtain rfl := Option.some.inj ((step_head missed).symm.trans stepped)
  refine ⟨⟨?_, ?_⟩, fun _ _ => trivial⟩
  · intro lookup found
    rw [lookup_of_a found]
    exact fits_of_a remote _
  · intro lookup found
    rw [lookup_of_a found]
    exact ⟨fun some => absurd rfl some, fun dir => absurd dir noDir⟩

theorem once_answers (head : HubAnswer HeadFileInfo) :
    ∀ event ∈ answers head, ∀ parent name, event ≠ .lookup 0 parent name := by
  simp [answers]

theorem rightMiss_of_cached_missing :
    RightMiss plainMount 0 callOfA.fullPath
      (lookingForA (fun _ => none) .probing) (answers .missing) := by
  apply @rightMiss_of_cached plainMount (emptyRoot fun _ => none) _
    (lookingForA (fun _ => none) .absent) 0 rootInode ['a'] callOfA _
    (inOrder_emptyRoot _) (by decide) rfl _ (once_answers .missing)
    (ran_answers rfl) rfl
  have noDir : ¬ RemoteDir (fun _ => none) ['a'] :=
    fun ⟨_, _, has⟩ => has rfl
  have answered := @answered_answers (fun _ => none) .missing rfl rfl noDir
  have spared : AllSteps (step plainMount) (Spares plainMount 0)
      (lookingForA (fun _ => none) .probing) (answers .missing) := by
    refine ⟨?_, fun _ _ => ⟨trivial, fun _ _ => trivial⟩⟩
    rintro _ _ _ _ head same
    cases same
  exact allSteps_mono
    (fun _ _ all => ⟨all.1.1, all.1.2, all.2⟩) (answered.and spared)

/-- The file `a` has been committed since the root was loaded, and its HEAD
request is answered without a size. -/
theorem not_rightMiss_of_cached : ¬ ∀ (settings : ListingSettings)
    (start begun final : LookupMount) (id : Nat) (parent : Ino) (name : Name)
    (call : LookupCall) (events : List LookupEvent),
    start.table.InOrder → ValidName name →
    step settings start (.lookup id parent name) = some begun →
    AllSteps (step settings) (fun state event => state.Fits event ∧
      Answered settings state event) begun events →
    (∀ event ∈ events, ∀ parent name, event ≠ .lookup id parent name) →
    exec (step settings) begun events = some final →
    final.lookups id = some ⟨call, .absent⟩ →
    RightMiss settings id call.fullPath begun events := by
  intro claim
  let remote : Remote := fun path => if path = ['a'] then some ['h'] else none
  let sizeless : HubAnswer HeadFileInfo := .ok ⟨some ['h'], none, none, none⟩
  have file : remote ['a'] ≠ none := by decide
  have noDir : ¬ RemoteDir remote ['a'] := by
    rintro ⟨other, below, has⟩
    by_cases same : other = ['a']
    · rw [same] at below
      revert below
      decide
    · exact has (if_neg same)
  have answered := @answered_answers remote sizeless rfl file noDir
  have right := claim plainMount (emptyRoot remote)
    (lookingForA remote .probing) (lookingForA remote .absent) 0 rootInode
    ['a'] callOfA (answers sizeless) (inOrder_emptyRoot remote) (by decide) rfl
    answered (once_answers sizeless) (ran_answers rfl) rfl
  obtain ⟨earlier, later, middle, same, ran, absent, _⟩ := right.absent
  have others : ∀ event ∈ earlier, ∀ other, event ≠ .remote other := by
    intro event member other
    have among : event ∈ answers sizeless := by
      rw [same]
      exact List.mem_append_left later member
    rcases List.mem_pair.mp among with rfl | rfl
    · simp
    · simp
  rw [same] at answered
  have kept : middle.table.InOrder ∧ middle.remote = remote := by
    apply exec_invariant _ _
      (answered.first.and (allSteps_of_forall others)) ran
    · rintro state event next ⟨order, same⟩ ⟨⟨fits, _⟩, notRemote⟩ stepped
      have keeps := keeps_step order fits stepped
      exact ⟨keeps.order, (keeps.remote notRemote).trans same⟩
    · exact ⟨inOrder_emptyRoot remote, rfl⟩
  rw [kept.2] at absent
  exact absent (Or.inl file)

end LookupMount

end HfMount.Vfs
