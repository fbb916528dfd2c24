import HfMount.Vfs.Leaves
import HfMount.Vfs.NameCalls

/-!
# What is left of a call that fails

A create, link or rename that fails has neither changed a name nor taken a
delete out of the queue, unless it is a create whose container fails, or had
cancelled the delete of its destination by then.  A name or a delete that
another call changes in the meantime is left out.
-/

namespace HfMount.Inode

namespace InodeTable

variable {table : InodeTable}

theorem sameLinks_touch (table : InodeTable) (ino : Ino) :
    Corresponding InodeEntry.SameLinks table (table.touch ino) := by
  unfold touch
  split
  · exact .refl InodeEntry.SameLinks.refl table
  · have modified : Corresponding InodeEntry.SameLinks table
        (table.modifyEviction ino fun state =>
          { state with lastTouched := table.touchCounter }) := by
      apply corresponding_modify InodeEntry.SameLinks.refl
      intro entry
      exact .of_fields rfl
    exact ⟨modified.forward, modified.backward, modified.path,
      modified.nextInode⟩

/-- A new file is marked dirty, and its directory is touched. -/
theorem sameLinks_created (table : InodeTable) (ino parent : Ino) (now : Time) :
    Corresponding InodeEntry.SameLinks table
      (((table.modify ino (·.setDirty)).touchParent parent now).touch ino) := by
  have dirty := corresponding_modify InodeEntry.SameLinks.refl table ino
    fun entry => InodeEntry.SameLinks.of_fields (rfl :
      entry.setDirty.linkFields = entry.linkFields)
  have touched := corresponding_modify InodeEntry.SameLinks.refl
    (table.modify ino (·.setDirty)) parent fun entry =>
      InodeEntry.SameLinks.of_fields (rfl : InodeEntry.linkFields
        { entry with
          mtime := now
          ctime := now } = entry.linkFields)
  apply Corresponding.trans .trans dirty
  exact Corresponding.trans .trans touched (sameLinks_touch _ ino)

theorem InOrder.sameLinks {after : InodeTable} (order : table.InOrder)
    (same : Corresponding InodeEntry.SameLinks table after) : after.InOrder :=
  ⟨order.wf.similar same.similar, order.counted.similar same⟩

end InodeTable

end HfMount.Inode

namespace HfMount.Vfs

open SlashPath Inode Flush Transition

/-- A step of another call, or the arrival of a listing. -/
def NameEvent.isOther : NameEvent → Bool
  | .operation _ | .deletes _ => true
  | .advance _ | .refused _ | .committed _ _ _ _ => false

/-- The file that the call has inserted and not yet returned. -/
def NameCall.created : NameCall → Option CreatedFile
  | .createInserted file | .createBacking file _ => some file
  | _ => none

/-- A call that has not begun, under a name that the kernel may send. -/
def NameCall.Begins : NameCall → Prop
  | .create request => ValidName request.name
  | .link _ | .rename _ => True
  | _ => False

theorem NameCall.Begins.created {call : NameCall} (begins : call.Begins) :
    call.created = none := by
  cases call <;> first | rfl | exact begins.elim

namespace NameRun

variable {options : MountOptions} {run next start final : NameRun}
  {event : NameEvent} {events : List NameEvent} {dir : Ino} {name : Name}
  {path : Path} {errno : CallErrno}

def names (run : NameRun) (dir : Ino) (name : Name) :
    Option (Ino × InodeKind) :=
  run.vfs.table.names dir name

def Queued (run : NameRun) (path : Path) : Prop :=
  path ∈ run.vfs.flushManager.pendingDeletes

/-- The operations of other calls act on the table that they have read. -/
def OthersFit (run : NameRun) : NameEvent → Prop
  | .operation op => run.vfs.table.Fits op
  | _ => True

instance decidableOthersFit (run : NameRun) (event : NameEvent) :
    Decidable (run.OthersFit event) := by
  cases event <;> unfold OthersFit <;> infer_instance

def LeavesName (options : MountOptions) (dir : Ino) (name : Name)
    (run : NameRun) (event : NameEvent) : Prop :=
  event.isOther = true → ∀ next, run.step options event = some next →
    next.names dir name = run.names dir name

def LeavesDelete (options : MountOptions) (path : Path) (run : NameRun)
    (event : NameEvent) : Prop :=
  event.isOther = true → ∀ next, run.step options event = some next →
    (next.Queued path ↔ run.Queued path)

/-- Every name and every queued delete that the other calls have left alone is
what it was. -/
def Unchanged (options : MountOptions) (start : NameRun)
    (events : List NameEvent) (final : NameRun) : Prop :=
  (∀ dir name,
    AllSteps (step options) (LeavesName options dir name) start events →
    final.names dir name = start.names dir name) ∧
  ∀ path, AllSteps (step options) (LeavesDelete options path) start events →
    (final.Queued path ↔ start.Queued path)

/-- The container of a create under this name fails, which is not undone. -/
def Abandons (dir : Ino) (name : Name) (run : NameRun) (event : NameEvent) :
    Prop :=
  match run.call, event with
  | .createBacking file (step :: _), .refused _ =>
      step.undone = false ∧ file.parent = dir ∧ file.name = name
  | _, _ => False

/-- The call cancels the delete of this path. -/
def Cancels (path : Path) (run : NameRun) (event : NameEvent) : Prop :=
  match run.call, event with
  | .createInserted file, .advance _ => file.fullPath = path
  | .linkSent info, .advance _ => info.newFullPath = path
  | .renameSent _ info _, .advance _ =>
      info.newFullPath = path ∨
        (info.kind = .directory ∧ (info.newFullPath ++ ['/']) <+: path)
  | _, _ => False

theorem Abandons.own (abandons : run.Abandons dir name event) :
    event.isOther = false := by
  unfold Abandons at abandons
  split at abandons
  · rfl
  · exact abandons.elim

theorem Abandons.step (abandons : run.Abandons dir name event)
    (stepped : run.step options event = some next) :
    ∃ file errno, run.call.created = some file ∧
      next.call = .returned (.error errno) := by
  obtain ⟨vfs, call⟩ := run
  cases call with
  | createBacking file steps =>
      cases steps with
      | nil => cases event <;> exact abandons.elim
      | cons backing steps =>
          cases event with
          | refused errno =>
              obtain rfl := Option.some.inj stepped
              exact ⟨file, errno, rfl, rfl⟩
          | _ => exact abandons.elim
  | _ => cases event <;> exact abandons.elim

theorem Cancels.own (cancels : run.Cancels path event) :
    event.isOther = false := by
  unfold Cancels at cancels
  split at cancels
  · rfl
  · rfl
  · rfl
  · exact cancels.elim

/-- No create fails at its container, and no delete that was queued before is
cancelled, as far as the other calls leave the name and the delete alone. -/
def Harmless (options : MountOptions) (start : NameRun)
    (events : List NameEvent) : Prop :=
  (∀ dir name,
    AllSteps (step options) (LeavesName options dir name) start events →
    AllSteps (step options) (fun run event => ¬ run.Abandons dir name event)
      start events) ∧
  ∀ path, AllSteps (step options) (LeavesDelete options path) start events →
    start.Queued path →
    AllSteps (step options) (fun run event => ¬ run.Cancels path event)
      start events

/-! ## What a step of the call does -/

inductive OwnStep (options : MountOptions) : NameRun → NameEvent → NameRun →
    Prop where
  | succeeds {run next : NameRun} {event : NameEvent}
      (ok : next.call = .returned (.ok ())) : OwnStep options run event next
  | inserts {run : NameRun} {request : CreateRequest} {now : Time}
      {parentEntry : InodeEntry} (call : run.call = .create request)
      (found : run.vfs.table.get request.parent = some parentEntry)
      (directory : parentEntry.kind = .directory)
      (free : run.vfs.table.lookupChild request.parent request.name = none) :
      OwnStep options run (.advance now)
        ⟨(run.vfs.insertCreated request parentEntry now).1,
          .createInserted (run.vfs.insertCreated request parentEntry now).2⟩
  | undoes {run : NameRun} {file : CreatedFile} {backing : BackingStep}
      {steps : List BackingStep} (errno : CallErrno)
      (call : run.call = .createBacking file (backing :: steps)) :
      OwnStep options run (.refused errno)
        ⟨run.vfs.createUndo file backing, .returned (.error errno)⟩
  | vanished {run next : NameRun} {file : CreatedFile} {now : Time}
      (call : run.call = .createBacking file [])
      (table : next.vfs.table = run.vfs.table)
      (missing : run.vfs.table.get file.ino = none)
      (later : next.call = .returned (.error (.table .enoent))) :
      OwnStep options run (.advance now) next
  | commits {run next : NameRun} {hash : Hash} {size generation : Nat}
      {now : Time} (ino : Ino)
      (table : next.vfs.table = run.vfs.table.modify ino
        (·.applyCommit hash size generation now))
      (before : run.call.created = none) (after : next.call.created = none)
      (begun : next.call.isStart = false) :
      OwnStep options run (.committed hash size generation now) next
  | keeps {run next : NameRun} {event : NameEvent}
      (table : next.vfs.table = run.vfs.table)
      (created : next.call.created = run.call.created)
      (begun : next.call.isStart = false) : OwnStep options run event next

/-- The call itself takes out of the queue what it cancels, and adds nothing. -/
structure OwnChange (options : MountOptions) (run : NameRun)
    (event : NameEvent) (next : NameRun) : Prop where
  shape : OwnStep options run event next
  queued : ∀ path, next.Queued path ↔
    run.Queued path ∧ ¬ run.Cancels path event

theorem OwnChange.silent (shape : OwnStep options run event next)
    (silent : ∀ path, ¬ run.Cancels path event)
    (deletes : next.vfs.flushManager = run.vfs.flushManager) :
    OwnChange options run event next := by
  refine ⟨shape, fun path => ?_⟩
  simp only [Queued, deletes, silent path, not_false_eq_true, and_true]

theorem OwnChange.of_fails {vfs : VirtualFs} {call : NameCall}
    (pending : call.created = none)
    (silent : ∀ path, ¬ (⟨vfs, call⟩ : NameRun).Cancels path event)
    (errno : CallErrno) :
    OwnChange options ⟨vfs, call⟩ event
      ⟨(vfs.fails errno).1, (vfs.fails errno).2⟩ := by
  have none : (vfs.fails errno).2.created = call.created := by
    rw [pending]
    rfl
  exact .silent (.keeps rfl none rfl) silent rfl

section

variable {vfs : VirtualFs} {now : Time}

theorem ownChange_create (request : CreateRequest) :
    OwnChange options ⟨vfs, .create request⟩ (.advance now)
      ⟨(vfs.createInsert request now).1, (vfs.createInsert request now).2⟩ := by
  cases found : vfs.table.get request.parent with
  | none =>
      simp only [VirtualFs.createInsert, found]
      exact .of_fails rfl (fun _ => id) _
  | some parentEntry =>
      by_cases directory : parentEntry.kind = .directory
      · cases looked : vfs.table.lookupChild request.parent request.name with
        | some existing =>
            simp only [VirtualFs.createInsert, found, directory, looked, ne_eq,
              not_true_eq_false, if_false, Option.isSome_some, if_true]
            exact .of_fails rfl (fun _ => id) _
        | none =>
            simp only [VirtualFs.createInsert, found, directory, looked, ne_eq,
              not_true_eq_false, if_false, Option.isSome_none,
              Bool.false_eq_true]
            exact .silent (.inserts rfl found directory looked) (fun _ => id)
              rfl
      · simp only [VirtualFs.createInsert, found, ne_eq, directory,
          not_false_eq_true, if_true]
        exact .of_fails rfl (fun _ => id) _

theorem ownChange_createCancel (file : CreatedFile) (steps : List BackingStep) :
    OwnChange options ⟨vfs, .createInserted file⟩ (.advance now)
      ⟨vfs.createCancel file, .createBacking file steps⟩ := by
  refine ⟨.keeps rfl rfl rfl, fun path => ?_⟩
  simp only [Queued, VirtualFs.createCancel, FlushManager.cancelDelete,
    Cancels, List.mem_filter, decide_eq_true_eq, ne_eq, @eq_comm _ path]

theorem createFinish_of_found {file : CreatedFile} {entry : InodeEntry}
    (found : vfs.table.get file.ino = some entry) :
    (vfs.createFinish options file).2 = .returned (.ok ()) := by
  unfold VirtualFs.createFinish
  by_cases encrypted : options.createMode = .encrypted
  · simp [encrypted, InodeTable.bumpOpenHandles, InodeTable.get_modify, found]
  · simp [encrypted, InodeTable.bumpOpenHandles, InodeTable.get_modify, found]

theorem createFinish_of_missing {file : CreatedFile}
    (missing : vfs.table.get file.ino = none) :
    vfs.createFinish options file = vfs.fails (.table .enoent) := by
  simp only [VirtualFs.createFinish, InodeTable.bumpOpenHandles,
    InodeTable.modify_of_none missing, ite_self, missing, Option.isNone_none,
    if_true]

theorem ownChange_createFinish (file : CreatedFile) :
    OwnChange options ⟨vfs, .createBacking file []⟩ (.advance now)
      ⟨(vfs.createFinish options file).1,
        (vfs.createFinish options file).2⟩ := by
  cases found : vfs.table.get file.ino with
  | some entry =>
      apply OwnChange.silent (.succeeds (createFinish_of_found found))
        (fun _ => id)
      unfold VirtualFs.createFinish
      dsimp only
      split <;> split <;> rfl
  | none =>
      rw [createFinish_of_missing found]
      exact .silent (.vanished rfl rfl found rfl) (fun _ => id) rfl

theorem ownChange_createUndo (file : CreatedFile) (backing : BackingStep)
    (steps : List BackingStep) (errno : CallErrno) :
    OwnChange options ⟨vfs, .createBacking file (backing :: steps)⟩
      (.refused errno)
      ⟨vfs.createUndo file backing, .returned (.error errno)⟩ := by
  apply OwnChange.silent (.undoes errno rfl) (fun _ => id)
  unfold VirtualFs.createUndo
  dsimp only
  split <;> rfl

theorem ownChange_link (request : LinkRequest) :
    OwnChange options ⟨vfs, .link request⟩ (.advance now)
      ⟨(vfs.linkSourced request).1, (vfs.linkSourced request).2⟩ := by
  unfold VirtualFs.linkSourced
  split
  · exact .of_fails rfl (fun _ => id) _
  · exact .silent (.keeps rfl rfl rfl) (fun _ => id) rfl

theorem ownChange_linkPlace (request : LinkRequest)
    (source : Option LinkSource) :
    OwnChange options ⟨vfs, .linkSourced request source⟩ (.advance now)
      ⟨(vfs.linkPlace request source).1, (vfs.linkPlace request source).2⟩ := by
  unfold VirtualFs.linkPlace
  split
  · exact .of_fails rfl (fun _ => id) _
  · split
    · exact .of_fails rfl (fun _ => id) _
    · split
      · exact .of_fails rfl (fun _ => id) _
      · exact .silent (.keeps rfl rfl rfl) (fun _ => id) rfl

theorem ownChange_linkResourced (request : LinkRequest) (newFullPath : Path) :
    OwnChange options ⟨vfs, .linkCommitted request newFullPath⟩ (.advance now)
      ⟨(vfs.linkResourced request newFullPath).1,
        (vfs.linkResourced request newFullPath).2⟩ := by
  unfold VirtualFs.linkResourced
  split
  · exact .of_fails rfl (fun _ => id) _
  · exact .of_fails rfl (fun _ => id) _
  · exact .silent (.keeps rfl rfl rfl) (fun _ => id) rfl

theorem ownChange_linkCancel (info : LinkInfo) :
    OwnChange options ⟨vfs, .linkSent info⟩ (.advance now)
      ⟨vfs.linkCancel info, .linkCancelled info⟩ := by
  refine ⟨.keeps rfl rfl rfl, fun path => ?_⟩
  simp only [Queued, VirtualFs.linkCancel, FlushManager.cancelDelete, Cancels,
    List.mem_filter, decide_eq_true_eq, ne_eq, @eq_comm _ path]

theorem ownChange_linkFinish (info : LinkInfo) :
    OwnChange options ⟨vfs, .linkCancelled info⟩ (.advance now)
      ⟨(vfs.linkFinish info now).1, (vfs.linkFinish info now).2⟩ := by
  unfold VirtualFs.linkFinish VirtualFs.linkInsert
  by_cases missing : (vfs.table.get info.newparent).isNone
  · simp only [missing, if_true]
    exact .of_fails rfl (fun _ => id) _
  · by_cases taken :
        (vfs.table.lookupChild info.newparent info.newname).isSome
    · simp only [missing, taken, if_true, Bool.false_eq_true, if_false]
      exact .of_fails rfl (fun _ => id) _
    · simp only [missing, taken, Bool.false_eq_true, if_false]
      exact .silent (.succeeds rfl) (fun _ => id) rfl

theorem ownChange_renameStart (request : RenameRequest) :
    OwnChange options ⟨vfs, .rename request⟩ (.advance now)
      ⟨(vfs.renameStart options request).1,
        (vfs.renameStart options request).2⟩ := by
  unfold VirtualFs.renameStart
  split
  · exact .silent (.succeeds rfl) (fun _ => id) rfl
  · split
    · exact .of_fails rfl (fun _ => id) _
    · exact .silent (.keeps rfl rfl rfl) (fun _ => id) rfl

theorem ownChange_renameGuard (request : RenameRequest) :
    OwnChange options ⟨vfs, .renameAllowed request⟩ (.advance now)
      ⟨(vfs.renameGuard options request).1,
        (vfs.renameGuard options request).2⟩ := by
  unfold VirtualFs.renameGuard
  split
  · exact .of_fails rfl (fun _ => id) _
  · exact .silent (.keeps rfl rfl rfl) (fun _ => id) rfl

theorem ownChange_renameCheck (request : RenameRequest) :
    OwnChange options ⟨vfs, .renameLoaded request⟩ (.advance now)
      ⟨(vfs.renameCheck request).1, (vfs.renameCheck request).2⟩ := by
  unfold VirtualFs.renameCheck
  split
  · exact .of_fails rfl (fun _ => id) _
  · exact .silent (.keeps rfl rfl rfl) (fun _ => id) rfl

theorem ownChange_renameCancel (request : RenameRequest) (info : RenameInfo)
    (mutated : Bool) :
    OwnChange options ⟨vfs, .renameSent request info mutated⟩ (.advance now)
      ⟨vfs.renameCancel info, .renameCancelled request info mutated⟩ := by
  refine ⟨.keeps rfl rfl rfl, fun path => ?_⟩
  by_cases directory : info.kind = .directory
  · simp only [Queued, VirtualFs.renameCancel, directory, if_true,
      FlushManager.cancelDelete, FlushManager.cancelDeletePrefix, Cancels,
      List.mem_filter, decide_eq_true_eq, ne_eq, @eq_comm _ path, true_and,
      not_or, and_assoc, Bool.not_eq_true', ← Bool.not_eq_true,
      List.isPrefixOf_iff_prefix]
  · simp only [Queued, VirtualFs.renameCancel, directory, if_false,
      FlushManager.cancelDelete, Cancels, List.mem_filter, decide_eq_true_eq,
      ne_eq, @eq_comm _ path, false_and, or_false]

theorem ownChange_renameFinish (request : RenameRequest) (info : RenameInfo)
    (mutated : Bool) :
    OwnChange options ⟨vfs, .renameCancelled request info mutated⟩
      (.advance now)
      ⟨(vfs.renameFinish options request info mutated now).1,
        (vfs.renameFinish options request info mutated now).2⟩ := by
  unfold VirtualFs.renameFinish
  split
  · exact .silent (.succeeds rfl) (fun _ => id) rfl
  · split
    · exact .silent (.succeeds rfl) (fun _ => id) rfl
    · exact .of_fails rfl (fun _ => id) _

end

theorem ownChange_advance {now : Time}
    (stepped : run.step options (.advance now) = some next) :
    OwnChange options run (.advance now) next := by
  obtain ⟨vfs, call⟩ := run
  obtain ⟨pair, advanced, rfl⟩ := Option.map_eq_some_iff.mp stepped
  cases call with
  | create request =>
      simp only [VirtualFs.advance] at advanced
      split at advanced <;> obtain rfl := Option.some.inj advanced
      · exact .of_fails rfl (fun _ => id) _
      · exact ownChange_create request
  | createInserted file =>
      obtain rfl := Option.some.inj advanced
      exact ownChange_createCancel file _
  | createBacking file steps =>
      cases steps <;> obtain rfl := Option.some.inj advanced
      · exact ownChange_createFinish file
      · exact .silent (.keeps rfl rfl rfl) (fun _ => id) rfl
  | link request =>
      simp only [VirtualFs.advance] at advanced
      split at advanced
      · obtain rfl := Option.some.inj advanced
        exact .of_fails rfl (fun _ => id) _
      · split at advanced <;> obtain rfl := Option.some.inj advanced
        · exact .of_fails rfl (fun _ => id) _
        · exact ownChange_link request
  | linkSourced request source =>
      obtain rfl := Option.some.inj advanced
      exact ownChange_linkPlace request source
  | linkPlaced request newFullPath source =>
      cases source with
      | none => cases advanced
      | some source =>
          obtain rfl := Option.some.inj advanced
          exact .silent (.keeps rfl rfl rfl) (fun _ => id) rfl
  | linkCommitted request newFullPath =>
      obtain rfl := Option.some.inj advanced
      exact ownChange_linkResourced request newFullPath
  | linkReady info =>
      obtain rfl := Option.some.inj advanced
      exact .silent (.keeps rfl rfl rfl) (fun _ => id) rfl
  | linkSent info =>
      obtain rfl := Option.some.inj advanced
      exact ownChange_linkCancel info
  | linkCancelled info =>
      obtain rfl := Option.some.inj advanced
      exact ownChange_linkFinish info
  | rename request =>
      simp only [VirtualFs.advance] at advanced
      split at advanced <;> obtain rfl := Option.some.inj advanced
      · exact .of_fails rfl (fun _ => id) _
      · exact ownChange_renameStart request
  | renameAllowed request =>
      obtain rfl := Option.some.inj advanced
      exact ownChange_renameGuard request
  | renameLoaded request =>
      obtain rfl := Option.some.inj advanced
      exact ownChange_renameCheck request
  | renameValidated request info =>
      obtain rfl := Option.some.inj advanced
      dsimp only
      split
      · exact .silent (.succeeds rfl) (fun _ => id) rfl
      · exact .silent (.keeps rfl rfl rfl) (fun _ => id) rfl
  | renameChecked request info =>
      simp only [VirtualFs.advance] at advanced
      split at advanced <;> obtain rfl := Option.some.inj advanced
      · exact .silent (.keeps rfl rfl rfl) (fun _ => id) rfl
      · exact .silent (.keeps rfl rfl rfl) (fun _ => id) rfl
  | renameSent request info mutated =>
      obtain rfl := Option.some.inj advanced
      exact ownChange_renameCancel request info mutated
  | renameCancelled request info mutated =>
      obtain rfl := Option.some.inj advanced
      exact ownChange_renameFinish request info mutated
  | returned result => cases advanced

theorem ownChange_refused
    (stepped : run.step options (.refused errno) = some next) :
    OwnChange options run (.refused errno) next := by
  obtain ⟨vfs, call⟩ := run
  obtain ⟨pair, refused, rfl⟩ := Option.map_eq_some_iff.mp stepped
  cases call with
  | createBacking file steps =>
      cases steps with
      | nil => cases refused
      | cons backing steps =>
          obtain rfl := Option.some.inj refused
          exact ownChange_createUndo file backing steps errno
  | linkPlaced request newFullPath source =>
      cases source <;> cases refused
      exact .of_fails rfl (fun _ => id) _
  | renameSent request info mutated =>
      simp only [VirtualFs.refuse] at refused
      split at refused <;> cases refused
      exact .of_fails rfl (fun _ => id) _
  | create _ | linkSourced _ _ | linkReady _ | rename _ | renameAllowed _
    | renameLoaded _ | renameChecked _ _ =>
      obtain rfl := Option.some.inj refused
      exact .of_fails rfl (fun _ => id) _
  | _ => cases refused

/-- What a step of the call itself can do. -/
theorem ownChange (own : event.isOther = false)
    (stepped : run.step options event = some next) :
    OwnChange options run event next := by
  cases event with
  | operation op => cases own
  | deletes event => cases own
  | advance now => exact ownChange_advance stepped
  | refused errno => exact ownChange_refused stepped
  | committed hash size generation now =>
      obtain ⟨vfs, call⟩ := run
      cases call <;> try cases stepped
      rename_i request newFullPath source
      cases source <;> cases stepped
      exact .silent (.commits request.ino rfl rfl rfl rfl) (fun _ => id) rfl

/-! ## The queue -/

theorem queued_iff (leaves : AllSteps (step options) (LeavesDelete options path)
      start events) (ran : exec (step options) start events = some final) :
    final.Queued path ↔ start.Queued path ∧
      AllSteps (step options) (fun run event => ¬ run.Cancels path event)
        start events := by
  induction events generalizing start with
  | nil =>
      obtain rfl := Option.some.inj ran
      simp [AllSteps]
  | cons event events ih =>
      obtain ⟨next, stepped, rest⟩ := exec_cons_iff.mp ran
      rw [ih (leaves.2 next stepped) rest, allSteps_cons_iff stepped, ← and_assoc]
      refine and_congr_left fun _ => ?_
      cases kind : event.isOther with
      | true =>
          have silent : ¬ start.Cancels path event := by
            intro cancels
            rw [cancels.own] at kind
            cases kind
          rw [leaves.1 kind next stepped]
          exact (and_iff_left silent).symm
      | false => exact (ownChange kind stepped).queued path

/-! ## The names -/

/-- What a name leads to, apart from the file that the call has inserted. -/
def apart (run : NameRun) (dir : Ino) (name : Name) :
    Option (Ino × InodeKind) :=
  match run.call.created with
  | some file =>
      if file.parent = dir ∧ file.name = name then none
      else run.names dir name
  | none => run.names dir name

/-- The table is in order while the call goes on.  A file that it has inserted
stays a file, and is under its own name only, as far as `name` shows. -/
structure Sound (dir : Ino) (name : Name) (run : NameRun) : Prop where
  order : run.vfs.table.InOrder
  valid : ∀ request, run.call = .create request → ValidName request.name
  file : ∀ file, run.call.created = some file →
    file.ino < run.vfs.table.nextInode ∧
      ∀ entry, run.vfs.table.get file.ino = some entry → entry.kind = .file
  own : ∀ file, run.call.created = some file → file.parent = dir →
    file.name = name → run.names dir name = some (file.ino, .file)
  foreign : ∀ file, run.call.created = some file →
    ¬ (file.parent = dir ∧ file.name = name) → ∀ kind,
      run.names dir name ≠ some (file.ino, kind)

theorem sound_of_begins (order : start.vfs.table.InOrder)
    (begins : start.call.Begins) (dir : Ino) (name : Name) :
    start.Sound dir name := by
  have fresh := begins.created
  refine ⟨order, ?_, ?_, ?_, ?_⟩
  · intro request call
    rw [call] at begins
    exact begins
  all_goals
    intro file created
    rw [fresh] at created
    cases created

theorem call_of_other (other : event.isOther = true)
    (stepped : run.step options event = some next) : next.call = run.call := by
  cases event with
  | operation op =>
      obtain ⟨table, _, rfl⟩ := Option.map_eq_some_iff.mp stepped
      rfl
  | deletes event =>
      obtain ⟨flushManager, _, rfl⟩ := Option.map_eq_some_iff.mp stepped
      rfl
  | advance _ | refused _ | committed _ _ _ _ => cases other

theorem other_of_returned {result : Except CallErrno Unit}
    (returned : run.call = .returned result)
    (stepped : run.step options event = some next) :
    event.isOther = true := by
  obtain ⟨vfs, call⟩ := run
  obtain rfl : call = .returned result := returned
  cases event <;> first | rfl | cases stepped

/-- After the call has returned, a name only changes through other calls. -/
theorem names_of_returned {result : Except CallErrno Unit}
    (returned : start.call = .returned result)
    (leaves : AllSteps (step options) (LeavesName options dir name) start
      events)
    (ran : exec (step options) start events = some final) :
    final.call = .returned result ∧ final.names dir name = start.names dir name ∧
      AllSteps (step options) (fun run event => ¬ run.Abandons dir name event)
        start events := by
  induction events generalizing start with
  | nil =>
      obtain rfl := Option.some.inj ran
      exact ⟨returned, rfl, trivial⟩
  | cons event events ih =>
      obtain ⟨next, stepped, rest⟩ := exec_cons_iff.mp ran
      have other := other_of_returned returned stepped
      have stays := (call_of_other other stepped).trans returned
      obtain ⟨call, names, never⟩ := ih stays (leaves.2 next stepped) rest
      refine ⟨call, names.trans (leaves.1 other next stepped), ?_⟩
      apply AllSteps.cons _ stepped never
      intro abandons
      rw [abandons.own] at other
      cases other

theorem Sound.other (sound : run.Sound dir name)
    (other : event.isOther = true) (fits : run.OthersFit event)
    (leaves : LeavesName options dir name run event)
    (stepped : run.step options event = some next) :
    next.Sound dir name ∧ next.apart dir name = run.apart dir name := by
  have call := call_of_other other stepped
  have names := leaves other next stepped
  obtain ⟨order, ages⟩ :
      next.vfs.table.InOrder ∧ run.vfs.table.Ages next.vfs.table := by
    cases event with
    | operation op =>
        obtain ⟨table, applied, rfl⟩ := Option.map_eq_some_iff.mp stepped
        exact ⟨sound.order.applyOp fits applied,
          (sound.order.wf.leafy.applyOp applied).2⟩
    | deletes event =>
        obtain ⟨flushManager, _, rfl⟩ := Option.map_eq_some_iff.mp stepped
        exact ⟨sound.order, .refl _⟩
    | advance _ | refused _ | committed _ _ _ _ => cases other
  constructor
  · refine ⟨order, ?_, ?_, ?_, ?_⟩
    · rw [call]
      exact sound.valid
    · rw [call]
      intro file created
      obtain ⟨given, isFile⟩ := sound.file file created
      refine ⟨given.trans_le ages.nextInode, ?_⟩
      intro entry found
      obtain ⟨before, foundBefore, kind⟩ := ages.kind given found
      exact kind.trans (isFile before foundBefore)
    · rw [call, names]
      exact sound.own
    · rw [call, names]
      exact sound.foreign
  · unfold apart
    rw [call, names]

/-- The file that `create` inserts is the only new thing. -/
structure Inserted (table : InodeTable) (request : CreateRequest)
    (after : InodeTable) (file : CreatedFile) : Prop where
  order : after.InOrder
  parent : file.parent = request.parent
  name : file.name = request.name
  ino : file.ino = table.nextInode
  given : file.ino < after.nextInode
  isFile : ∀ entry, after.get file.ino = some entry → entry.kind = .file
  names : ∀ dir name, after.names dir name =
    if file.parent = dir ∧ file.name = name then some (file.ino, .file)
    else table.names dir name

theorem inserted_insertCreated {vfs : VirtualFs} {request : CreateRequest}
    {parentEntry : InodeEntry} (order : vfs.table.InOrder)
    (found : vfs.table.get request.parent = some parentEntry)
    (directory : parentEntry.kind = .directory)
    (valid : ValidName request.name)
    (free : vfs.table.lookupChild request.parent request.name = none)
    (now : Time) :
    Inserted vfs.table request
      (vfs.insertCreated request parentEntry now).1.table
      (vfs.insertCreated request parentEntry now).2 := by
  have index := (order.wf.lookupChild_none found).mp free
  have kept := order.insert found directory valid (fun _ => rfl) .file 0 now
    none request.mode request.uid request.gid now
  have named := order.wf.names_insert found directory valid index .file 0 now
    none request.mode request.uid request.gid now
  obtain ⟨after, inserted, next, -, gotNew, -, -⟩ := InodeTable.insert_of_free
    order.wf found directory valid index .file 0 now none request.mode
    request.uid request.gid now
  rw [inserted] at kept named
  have marked := InodeTable.sameLinks_created after vfs.table.nextInode
    request.parent now
  simp only [VirtualFs.insertCreated, inserted]
  refine ⟨kept.sameLinks marked, rfl, rfl, rfl, ?_, ?_, ?_⟩
  · simp only [marked.nextInode, next]
    exact Nat.lt_succ_self _
  · intro entry foundNew
    obtain ⟨before, foundBefore, same⟩ := marked.backward foundNew
    rw [gotNew] at foundBefore
    obtain rfl := Option.some.inj foundBefore
    exact same.kind
  · intro dir name
    rw [InodeTable.names_similar marked.similar, named]
    simp only [@eq_comm _ dir, @eq_comm _ name]

theorem Sound.inserts {request : CreateRequest} {now : Time}
    {parentEntry : InodeEntry} (sound : run.Sound dir name)
    (call : run.call = .create request)
    (found : run.vfs.table.get request.parent = some parentEntry)
    (directory : parentEntry.kind = .directory)
    (free : run.vfs.table.lookupChild request.parent request.name = none)
    (later : next = ⟨(run.vfs.insertCreated request parentEntry now).1,
      .createInserted (run.vfs.insertCreated request parentEntry now).2⟩) :
    next.Sound dir name ∧ next.apart dir name = run.apart dir name := by
  have inserted := inserted_insertCreated sound.order found directory
    (sound.valid request call) free now
  generalize run.vfs.insertCreated request parentEntry now = created
    at inserted later
  subst later
  constructor
  · refine ⟨inserted.order, ?_, ?_, ?_, ?_⟩
    · intro other started
      cases started
    · intro file same
      obtain rfl : created.2 = file := Option.some.inj same
      exact ⟨inserted.given, inserted.isFile⟩
    · intro file same parent named
      obtain rfl : created.2 = file := Option.some.inj same
      simp only [names, inserted.names, parent, named, and_self, if_true]
    · intro file same elsewhere kind
      obtain rfl : created.2 = file := Option.some.inj same
      simp only [names, inserted.names, if_neg elsewhere, inserted.ino]
      exact sound.order.wf.names_ne_next
  · have before : run.apart dir name = run.names dir name := by
      simp only [apart, call, NameCall.created]
    rw [before]
    simp only [apart, NameCall.created, names, inserted.names]
    split <;> rename_i here
    · obtain ⟨rfl, rfl⟩ := here
      rw [inserted.parent, inserted.name]
      exact (InodeTable.names_eq_none.mpr free).symm
    · rfl

theorem Sound.keeps (sound : run.Sound dir name)
    (table : next.vfs.table = run.vfs.table)
    (created : next.call.created = run.call.created)
    (begun : next.call.isStart = false) :
    next.Sound dir name ∧ next.apart dir name = run.apart dir name := by
  have same : next.names dir name = run.names dir name := by
    simp only [names, table]
  constructor
  · refine ⟨?_, ?_, ?_, ?_, ?_⟩
    · rw [table]
      exact sound.order
    · intro request call
      rw [call] at begun
      cases begun
    · rw [created, table]
      exact sound.file
    · rw [created, same]
      exact sound.own
    · rw [created, same]
      exact sound.foreign
  · simp only [apart, created, same]

theorem Sound.commits {ino : Ino} {hash : Hash} {size generation : Nat}
    {now : Time} (sound : run.Sound dir name)
    (table : next.vfs.table = run.vfs.table.modify ino
      (·.applyCommit hash size generation now))
    (before : run.call.created = none) (after : next.call.created = none)
    (begun : next.call.isStart = false) :
    next.Sound dir name ∧ next.apart dir name = run.apart dir name := by
  have marked (entry : InodeEntry) :
      entry.SameLinks (entry.applyCommit hash size generation now) := by
    unfold InodeEntry.applyCommit InodeEntry.clearDirtyIf
    dsimp only
    split <;> exact .of_fields rfl
  constructor
  · refine ⟨?_, ?_, ?_, ?_, ?_⟩
    · rw [table]
      exact sound.order.update ino marked
    · intro request call
      rw [call] at begun
      cases begun
    all_goals
      intro file created
      rw [after] at created
      cases created
  · simp only [apart, before, after, names, table]
    exact InodeTable.names_modify _ _ (fun entry => (marked entry).toSameNode)
      dir name

/-- A file that the call has inserted is taken out again, wherever it is. -/
theorem Sound.undoes {file : CreatedFile} {backing : BackingStep}
    {steps : List BackingStep} (sound : run.Sound dir name)
    (call : run.call = .createBacking file (backing :: steps))
    (undone : backing.undone = true) :
    (run.vfs.createUndo file backing).table.names dir name =
      run.apart dir name := by
  have created : run.call.created = some file := by
    rw [call]
    rfl
  simp only [VirtualFs.createUndo, undone, if_true, apart, created]
  rw [sound.order.wf.names_remove_file (sound.file file created).2]
  split <;> rename_i here
  · have named := sound.own file created here.1 here.2
    simp only [names] at named
    simp [named, Option.filter]
  · exact InodeTable.filter_of_unnamed (sound.foreign file created here)

theorem Sound.vanished {file : CreatedFile} (sound : run.Sound dir name)
    (call : run.call = .createBacking file [])
    (table : next.vfs.table = run.vfs.table)
    (missing : run.vfs.table.get file.ino = none) :
    next.names dir name = run.apart dir name := by
  have created : run.call.created = some file := by
    rw [call]
    rfl
  simp only [names, table, apart, created]
  split <;> rename_i here
  · exact absurd (sound.own file created here.1 here.2)
      (sound.order.wf.names_ne_missing missing)
  · rfl

theorem Sound.refused {file : CreatedFile} {backing : BackingStep}
    {steps : List BackingStep} (sound : run.Sound dir name)
    (call : run.call = .createBacking file (backing :: steps)) :
    (run.vfs.createUndo file backing).table.names dir name =
        run.apart dir name ↔ ¬ run.Abandons dir name (.refused errno) := by
  have abandons : run.Abandons dir name (.refused errno) ↔
      backing.undone = false ∧ file.parent = dir ∧ file.name = name := by
    simp only [Abandons, call]
  rw [abandons]
  cases undone : backing.undone with
  | true =>
      rw [sound.undoes call undone]
      simp
  | false =>
      have created : run.call.created = some file := by
        rw [call]
        rfl
      simp only [VirtualFs.createUndo, undone, Bool.false_eq_true, if_false,
        apart, created, true_and]
      by_cases here : file.parent = dir ∧ file.name = name
      · have named := sound.own file created here.1 here.2
        simp only [names] at named
        simp [here, named]
      · simp [here, names]

/-- A step of the call leaves the name alone, goes back on the insertion, or
abandons it. -/
theorem Sound.own_step (sound : run.Sound dir name)
    (own : event.isOther = false)
    (stepped : run.step options event = some next) :
    next.call = .returned (.ok ()) ∨
    (∃ errno, next.call = .returned (.error errno) ∧
      (next.names dir name = run.apart dir name ↔
        ¬ run.Abandons dir name event)) ∨
    (next.Sound dir name ∧ next.apart dir name = run.apart dir name ∧
      ¬ run.Abandons dir name event) := by
  have carries_on (created : next.call.created = run.call.created) :
      ¬ run.Abandons dir name event := by
    intro abandons
    obtain ⟨file, errno, before, later⟩ := abandons.step stepped
    rw [before, later] at created
    cases created
  cases (ownChange own stepped).shape with
  | succeeds ok => exact Or.inl ok
  | inserts call found directory free =>
      obtain ⟨sound', same⟩ := sound.inserts call found directory free rfl
      refine Or.inr (Or.inr ⟨sound', same, ?_⟩)
      simp [Abandons, call]
  | undoes errno call =>
      exact Or.inr (Or.inl ⟨errno, rfl, sound.refused call⟩)
  | vanished call table missing later =>
      refine Or.inr (Or.inl ⟨_, later, ?_⟩)
      simp [sound.vanished call table missing, Abandons, call]
  | commits ino table before after begun =>
      obtain ⟨sound', same⟩ := sound.commits table before after begun
      exact Or.inr (Or.inr ⟨sound', same, carries_on (after.trans before.symm)⟩)
  | keeps table created begun =>
      obtain ⟨sound', same⟩ := sound.keeps table created begun
      exact Or.inr (Or.inr ⟨sound', same, carries_on created⟩)

theorem names_iff (sound : start.Sound dir name)
    (fits : AllSteps (step options) OthersFit start events)
    (leaves : AllSteps (step options) (LeavesName options dir name) start
      events)
    (ran : exec (step options) start events = some final)
    (failed : final.call = .returned (.error errno)) :
    final.names dir name = start.apart dir name ↔
      AllSteps (step options) (fun run event => ¬ run.Abandons dir name event)
        start events := by
  induction events generalizing start with
  | nil =>
      obtain rfl := Option.some.inj ran
      simp [AllSteps, apart, failed, NameCall.created]
  | cons event events ih =>
      obtain ⟨next, stepped, rest⟩ := exec_cons_iff.mp ran
      rw [allSteps_cons_iff stepped]
      have later := leaves.2 next stepped
      cases kind : event.isOther with
      | true =>
          obtain ⟨sound', same⟩ :=
            sound.other kind fits.1 leaves.1 stepped
          have own : ¬ start.Abandons dir name event := by
            intro abandons
            rw [abandons.own] at kind
            cases kind
          rw [← same, ih sound' (fits.2 next stepped) later rest]
          exact (and_iff_right own).symm
      | false =>
          obtain ok | ⟨errno', error, back⟩ | ⟨sound', same, goesOn⟩ :=
            sound.own_step kind stepped
          · have stays := (names_of_returned ok later rest).1
            rw [failed] at stays
            cases stays
          · obtain ⟨-, names, never⟩ := names_of_returned error later rest
            rw [names, back]
            exact (and_iff_left never).symm
          · rw [← same, ih sound' (fits.2 next stepped) later rest]
            exact (and_iff_right goesOn).symm

/-- A failed call has left everything as it was exactly when its run was
harmless. -/
theorem unchanged_iff_harmless {options : MountOptions} {start final : NameRun}
    {events : List NameEvent} {errno : CallErrno}
    (order : start.vfs.table.InOrder) (begins : start.call.Begins)
    (fits : AllSteps (step options) OthersFit start events)
    (ran : exec (step options) start events = some final)
    (failed : final.call = .returned (.error errno)) :
    Unchanged options start events final ↔ Harmless options start events := by
  have fresh (dir : Ino) (name : Name) :
      start.apart dir name = start.names dir name := by
    simp only [apart, begins.created]
  apply and_congr
  · refine forall_congr' fun dir => forall_congr' fun name =>
      forall_congr' fun leaves => ?_
    rw [← names_iff (sound_of_begins order begins dir name) fits leaves ran failed, fresh]
  · refine forall_congr' fun path => forall_congr' fun leaves => ?_
    rw [queued_iff leaves ran]
    exact ⟨fun same queued => (same.mpr queued).2,
      fun harmless => ⟨And.left, fun queued => ⟨queued, harmless queued⟩⟩⟩

/-- A create of the file `a`, whose delete may be queued. -/
def creatingA (pendingDeletes : List Path) : NameRun :=
  { vfs :=
      { table := .new
        flushManager := { FlushManager.new with pendingDeletes }
        staging := fun _ => none
        remote := fun _ => none }
    call := .create ⟨rootInode, ['a'], 420, 0, 0⟩ }

def advancedOptions (createMode : CreateMode) : MountOptions :=
  { readOnly := false
    overlay := false
    createMode
    guard := fun _ => none }

/-- Meanwhile a file `b` comes up, and then the staging file cannot be
opened. -/
def openFails : List NameEvent :=
  [.advance 1,
    .operation (.insert rootInode ['b'] ['b'] .file 0 1 none 420 0 0 1),
    .advance 2, .refused .eio]

theorem unchanged_iff_harmless_openFails :
    Unchanged (advancedOptions .localFile) (creatingA []) openFails
        ((exec (step (advancedOptions .localFile)) (creatingA [])
          openFails).get (by decide)) ↔
      Harmless (advancedOptions .localFile) (creatingA []) openFails :=
  unchanged_iff_harmless InodeTable.inOrder_new (by decide : ValidName ['a'])
    (by decide) (Option.some_get _).symm rfl

/-- The container of an encrypted file cannot be written.  The name stays, and
the delete that was queued for it is gone. -/
theorem not_unchanged : ¬ ∀ (options : MountOptions) (start final : NameRun)
    (events : List NameEvent) (errno : CallErrno),
    start.vfs.table.InOrder → start.call.Begins →
    AllSteps (step options) OthersFit start events →
    exec (step options) start events = some final →
    final.call = .returned (.error errno) →
    Unchanged options start events final := by
  intro claim
  have unchanged := claim (advancedOptions .encrypted) (creatingA [['a']]) _
    [.advance 1, .advance 2, .refused .eio] .eio InodeTable.inOrder_new
    (by decide : ValidName ['a']) (by decide) rfl rfl
  have alone : AllSteps (step (advancedOptions .encrypted))
      (LeavesName (advancedOptions .encrypted) rootInode ['a'])
      (creatingA [['a']]) [.advance 1, .advance 2, .refused .eio] := by
    apply allSteps_mono _ (allSteps_of_forall (by decide : ∀ event ∈
      [NameEvent.advance 1, .advance 2, .refused .eio],
        event.isOther = false))
    intro run event own other
    rw [own] at other
    cases other
  have named := unchanged.1 rootInode ['a'] alone
  revert named
  decide

end NameRun

end HfMount.Vfs
