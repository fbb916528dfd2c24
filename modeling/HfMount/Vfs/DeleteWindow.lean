import HfMount.Lib.Transition
import HfMount.Vfs.Calls

/-!
# Queued deletes and files that are added later

Unlink queues a remote delete; a rename or a link adds a file on the remote
and cancels the delete of its destination only afterwards.  Between the two the
flush loop may take the queue, and a batch that was taken before is not
cancelled at all.  The runs interleave any number of calls with any number of
delete batches, one phase at a time.
-/

namespace HfMount.Vfs

open SlashPath Inode Flush Transition

/-- How far a call has come. -/
inductive Call where
  | unlinkChecked (info : UnlinkInfo)
  | unlinkQueued (info : UnlinkInfo)
  | renameValidated (request : RenameRequest) (info : RenameInfo)
  | renameChecked (request : RenameRequest) (info : RenameInfo)
  | renameSent (request : RenameRequest) (info : RenameInfo)
  | renameCancelled (request : RenameRequest) (info : RenameInfo)
  | linkValidated (info : LinkInfo)
  | linkSent (info : LinkInfo)
  | linkCancelled (info : LinkInfo)
  | returned (errno : Option Errno)
  deriving DecidableEq

namespace Call

/-- The call has sent its additions, and its cancellation of the delete of
`path` is still to come. -/
def awaitsCancel (path : Path) : Call → Bool
  | .renameSent _ info =>
      decide (info.newFullPath = path) ||
        (decide (info.kind = .directory) &&
          (info.newFullPath ++ ['/']).isPrefixOf path)
  | .linkSent info => decide (info.newFullPath = path)
  | _ => false

/-- The next step of the call adds or deletes `path` on the remote. -/
def sends (path : Path) : Call → Bool
  | .renameChecked _ info => info.remoteOps.any fun op => op.path = path
  | .linkValidated info => decide (info.newFullPath = path)
  | _ => false

/-- The next step of the call queues the delete of `path`. -/
def queues (path : Path) : Call → Bool
  | .unlinkChecked info =>
      info.needsRemoteDelete && decide (info.fullPath = path)
  | _ => false

end Call

structure Mount where
  vfs : VirtualFs
  call : Nat → Option Call

/-- `advance` is the next step of a call and `refused` a Hub call that fails.
`load` stands for directory loads, and for other operations that only concern
the inode table. -/
inductive MountEvent where
  | unlink (id : Nat) (parent : Ino) (name : Name)
  | rename (id : Nat) (request : RenameRequest)
  | link (id : Nat) (ino newparent : Ino) (newname : Name)
  | advance (id : Nat) (now : Time)
  | refused (id : Nat) (errno : Errno)
  | load (table : InodeTable)
  | take
  | hubStart (batch : Nat)
  | hubDone (batch : Nat) (succeeded : Bool)
  | requeue (batch : Nat)

namespace Mount

def new (table : InodeTable) (remote : Remote) : Mount :=
  { vfs :=
      { table
        flushManager := .new
        staging := fun _ => none
        remote }
    call := fun _ => none }

def setCall (mount : Mount) (id : Nat) (vfs : VirtualFs) (call : Call) :
    Mount :=
  { vfs
    call := Function.update mount.call id (some call) }

/-- The first phase of a call, under a number that is not in use. -/
def start (mount : Mount) (id : Nat) (first : Except Errno Call) :
    Option Mount :=
  match mount.call id with
  | some _ => none
  | none => some (mount.setCall id mount.vfs
      (match first with
        | .ok call => call
        | .error errno => .returned (some errno)))

/-- A rename onto the same name returns at once. -/
def startRename (mount : Mount) (request : RenameRequest) :
    Except Errno Call :=
  if request.parent = request.newparent ∧ request.name = request.newname then
    .ok (.returned none)
  else (mount.vfs.table.renameValidate request).map (.renameValidated request)

def advanceCall (vfs : VirtualFs) (now : Time) :
    Call → Option (VirtualFs × Call)
  | .unlinkChecked info => some (vfs.unlinkEnqueue info, .unlinkQueued info)
  | .unlinkQueued info => some (vfs.unlinkLocal info now, .returned none)
  | .renameValidated request info =>
      some (vfs, if vfs.renameSameInode info request then .returned none
        else .renameChecked request info)
  | .renameChecked request info =>
      some (vfs.renameRemote info, .renameSent request info)
  | .renameSent request info =>
      some (vfs.renameCancel info, .renameCancelled request info)
  | .renameCancelled request info =>
      let applied := vfs.renameApply info request now
      some (applied.2, .returned applied.1)
  | .linkValidated info => some (vfs.linkRemote info, .linkSent info)
  | .linkSent info => some (vfs.linkCancel info, .linkCancelled info)
  | .linkCancelled info =>
      let inserted := vfs.linkInsert info now
      some (inserted.2, .returned inserted.1)
  | .returned _ => none

def advance (mount : Mount) (id : Nat) (now : Time) : Option Mount :=
  (mount.call id).bind fun call =>
    (advanceCall mount.vfs now call).map fun advanced =>
      mount.setCall id advanced.1 advanced.2

/-- A Hub batch of a rename or a link fails, and so does the call. -/
def refuse (mount : Mount) (id : Nat) (errno : Errno) : Option Mount :=
  match mount.call id with
  | some (.renameChecked _ _) | some (.linkValidated _) =>
      some (mount.setCall id mount.vfs (.returned (some errno)))
  | _ => none

def setFlushManager (mount : Mount) (flushManager : FlushManager) : Mount :=
  { mount with vfs := { mount.vfs with flushManager } }

/-- A batch whose Hub call succeeds has deleted its paths. -/
def hubDone (mount : Mount) (batch : Nat) (succeeded : Bool) : Option Mount :=
  (mount.vfs.flushManager.finishHubCall batch succeeded).map fun finished =>
    let sent := (mount.vfs.flushManager.batch batch).elim [] (·.paths)
    { mount with
      vfs :=
        { mount.vfs with
          flushManager := finished
          remote := if succeeded then (mount.vfs.deleteRemote sent).remote
            else mount.vfs.remote } }

def step (mount : Mount) : MountEvent → Option Mount
  | .unlink id parent name =>
      mount.start id ((mount.vfs.unlinkCheck parent name).map .unlinkChecked)
  | .rename id request => mount.start id (mount.startRename request)
  | .link id ino newparent newname =>
      mount.start id ((mount.vfs.linkValidate ino newparent newname).map
        .linkValidated)
  | .advance id now => mount.advance id now
  | .refused id errno => mount.refuse id errno
  | .load table => some { mount with vfs := { mount.vfs with table } }
  | .take => mount.vfs.flushManager.takeDeletes.map mount.setFlushManager
  | .hubStart batch =>
      (mount.vfs.flushManager.startHubCall batch).map mount.setFlushManager
  | .hubDone batch succeeded => mount.hubDone batch succeeded
  | .requeue batch =>
      (mount.vfs.flushManager.requeue batch).map mount.setFlushManager

/-! ## What a call does in one step -/

/-- The delete of `path` is cancelled by the step of a call that awaits it. -/
theorem not_mem_renameCancel {vfs : VirtualFs} {request : RenameRequest}
    {info : RenameInfo} {path : Path}
    (member : path ∈ (vfs.renameCancel info).flushManager.pendingDeletes) :
    path ∈ vfs.flushManager.pendingDeletes ∧
      (Call.renameSent request info).awaitsCancel path = false := by
  simp only [VirtualFs.renameCancel] at member
  have kept : path ∈
      (vfs.flushManager.cancelDelete info.newFullPath).pendingDeletes := by
    split at member
    · exact List.mem_of_mem_filter member
    · exact member
  obtain ⟨queued, different⟩ := List.mem_filter.mp kept
  refine ⟨queued, ?_⟩
  have notHere : info.newFullPath ≠ path := by
    rintro rfl
    simp at different
  simp only [Call.awaitsCancel, notHere, decide_false, Bool.false_or,
    Bool.and_eq_false_iff]
  by_cases directory : info.kind = .directory
  · right
    rw [if_pos directory] at member
    simpa using (List.mem_filter.mp member).2
  · exact Or.inl (decide_eq_false directory)

theorem advanceCall_remote {vfs next : VirtualFs} {now : Time}
    {call later : Call} {path : Path} (silent : call.sends path = false)
    (advanced : advanceCall vfs now call = some (next, later)) :
    next.remote path = vfs.remote path := by
  cases call <;> simp only [advanceCall, Option.some.injEq, Prod.mk.injEq,
    reduceCtorEq] at advanced <;> obtain ⟨rfl, -⟩ := advanced
  case unlinkChecked info =>
    unfold VirtualFs.unlinkEnqueue
    split <;> rfl
  case unlinkQueued info =>
    unfold VirtualFs.unlinkLocal
    dsimp only
    split <;> rfl
  case renameChecked request info =>
    have elsewhere : ∀ op ∈ info.remoteOps, op.path ≠ path :=
      fun op member same =>
        List.any_eq_false.mp silent op member (decide_eq_true same)
    apply batch_of_untouched
    · exact fun hash member => elsewhere _ member rfl
    · exact fun member => elsewhere _ member rfl
  case renameCancelled request info =>
    unfold VirtualFs.renameApply
    split
    · rfl
    · split <;> rfl
  case linkValidated info =>
    have elsewhere : info.newFullPath ≠ path := by
      simpa [Call.sends] using silent
    apply batch_of_untouched
    · intro hash member
      obtain ⟨same, _⟩ := BatchOp.addFile.inj (List.mem_singleton.mp member)
      exact elsewhere same.symm
    · simp
  case linkCancelled info =>
    unfold VirtualFs.linkInsert
    split
    · rfl
    · split <;> rfl
  all_goals rfl

/-- A call changes the delete queue only where it queues or cancels. -/
theorem advanceCall_deletes {vfs next : VirtualFs} {now : Time}
    {call later : Call} (advanced : advanceCall vfs now call = some (next, later)) :
    next.flushManager.batch = vfs.flushManager.batch ∧
      ∀ path ∈ next.flushManager.pendingDeletes,
        call.queues path = true ∨
          (path ∈ vfs.flushManager.pendingDeletes ∧
            call.awaitsCancel path = false) := by
  cases call <;> simp only [advanceCall, Option.some.injEq, Prod.mk.injEq,
    reduceCtorEq] at advanced <;> obtain ⟨rfl, -⟩ := advanced
  case unlinkChecked info =>
    unfold VirtualFs.unlinkEnqueue
    split <;> rename_i needed
    · refine ⟨rfl, fun path member => ?_⟩
      rcases List.mem_append.mp member with earlier | last
      · exact Or.inr ⟨earlier, rfl⟩
      · left
        simp [Call.queues, needed, List.mem_singleton.mp last]
    · exact ⟨rfl, fun path member => Or.inr ⟨member, rfl⟩⟩
  case unlinkQueued info =>
    unfold VirtualFs.unlinkLocal
    dsimp only
    split <;> exact ⟨rfl, fun path member => Or.inr ⟨member, rfl⟩⟩
  case renameSent request info =>
    refine ⟨?_, fun path member => Or.inr (not_mem_renameCancel member)⟩
    simp only [VirtualFs.renameCancel]
    split <;> rfl
  case renameCancelled request info =>
    unfold VirtualFs.renameApply
    split
    · exact ⟨rfl, fun path member => Or.inr ⟨member, rfl⟩⟩
    · split <;> exact ⟨rfl, fun path member => Or.inr ⟨member, rfl⟩⟩
  case linkSent info =>
    refine ⟨rfl, fun path member => Or.inr ?_⟩
    obtain ⟨queued, different⟩ := List.mem_filter.mp member
    have elsewhere : info.newFullPath ≠ path := by
      rintro rfl
      simp at different
    exact ⟨queued, decide_eq_false elsewhere⟩
  case linkCancelled info =>
    unfold VirtualFs.linkInsert
    split
    · exact ⟨rfl, fun path member => Or.inr ⟨member, rfl⟩⟩
    · split <;> exact ⟨rfl, fun path member => Or.inr ⟨member, rfl⟩⟩
  all_goals exact ⟨rfl, fun path member => Or.inr ⟨member, rfl⟩⟩

/-! ## A file that was added -/

/-- The event is no later operation on `path`: no call adds or deletes it on
the remote, and its delete is queued only while the call `id` is still to
cancel it. -/
def LeavesAlone (id : Nat) (path : Path) (mount : Mount) :
    MountEvent → Prop
  | .advance other _ => ∀ call, mount.call other = some call →
      call.sends path = false ∧
        (call.queues path = true →
          (mount.call id).any (·.awaitsCancel path) = true)
  | _ => True

/-- The flush loop does not take the delete of `path` between the addition and
its cancellation. -/
def WindowClosed (id : Nat) (path : Path) (mount : Mount) :
    MountEvent → Prop
  | .take => path ∈ mount.vfs.flushManager.pendingDeletes →
      (mount.call id).any (·.awaitsCancel path) = false
  | _ => True

instance (id : Nat) (path : Path) (mount : Mount) :
    ∀ event, Decidable (LeavesAlone id path mount event)
  | .advance other _ =>
      inferInstanceAs (Decidable (∀ call ∈ mount.call other,
        call.sends path = false ∧ (call.queues path = true →
          (mount.call id).any (·.awaitsCancel path) = true)))
  | .unlink _ _ _ | .rename _ _ | .link _ _ _ _ | .refused _ _ | .load _
  | .take | .hubStart _ | .hubDone _ _ | .requeue _ => isTrue trivial

instance (id : Nat) (path : Path) (mount : Mount) :
    ∀ event, Decidable (WindowClosed id path mount event)
  | .take => inferInstanceAs (Decidable (_ → _))
  | .unlink _ _ _ | .rename _ _ | .link _ _ _ _ | .advance _ _ | .refused _ _
  | .load _ | .hubStart _ | .hubDone _ _ | .requeue _ => isTrue trivial

/-- The remote holds the file, and every copy of its delete that is queued is
going to be cancelled. -/
structure Guarded (id : Nat) (path : Path) (hash : Hash) (mount : Mount) :
    Prop where
  held : mount.vfs.remote path = some hash
  notInFlight : ∀ number batch,
    mount.vfs.flushManager.batch number = some batch → path ∉ batch.paths
  queued : path ∈ mount.vfs.flushManager.pendingDeletes →
    (mount.call id).any (·.awaitsCancel path) = true

/-- Starting a call changes nothing but its own phase. -/
theorem Guarded.start {mount next : Mount} {id other : Nat} {path : Path}
    {hash : Hash} {first : Except Errno Call}
    (guarded : Guarded id path hash mount)
    (started : mount.start other first = some next) :
    Guarded id path hash next := by
  unfold Mount.start at started
  split at started <;> rename_i free
  · cases started
  obtain rfl := Option.some.inj started
  refine ⟨guarded.held, guarded.notInFlight, fun member => ?_⟩
  have awaits := guarded.queued member
  have different : id ≠ other := by
    rintro rfl
    rw [free] at awaits
    cases awaits
  simpa only [setCall, Function.update_of_ne different] using awaits

theorem Guarded.advance {mount next : Mount} {id other : Nat} {path : Path}
    {hash : Hash} {now : Time} (guarded : Guarded id path hash mount)
    (alone : LeavesAlone id path mount (.advance other now))
    (stepped : mount.advance other now = some next) :
    Guarded id path hash next := by
  obtain ⟨call, found, advancedTo⟩ := Option.bind_eq_some_iff.mp stepped
  obtain ⟨⟨vfs, later⟩, advanced, rfl⟩ := Option.map_eq_some_iff.mp advancedTo
  obtain ⟨silent, queuesOnly⟩ := alone call found
  obtain ⟨batch, deletes⟩ := advanceCall_deletes advanced
  refine ⟨?_, ?_, ?_⟩
  · exact (advanceCall_remote silent advanced).trans guarded.held
  · intro number held lookup
    exact guarded.notInFlight number held (by rw [← batch]; exact lookup)
  · intro member
    -- Whatever was queued, the call `id` still awaits its cancellation, and
    -- so the step is one of another call.
    have awaits : (mount.call id).any (·.awaitsCancel path) = true ∧
        call.awaitsCancel path = false := by
      rcases deletes path member with queues | ⟨queued, notAwaiting⟩
      · refine ⟨queuesOnly queues, ?_⟩
        cases call <;> first | rfl | cases queues
      · exact ⟨guarded.queued queued, notAwaiting⟩
    have different : id ≠ other := by
      rintro rfl
      rw [found] at awaits
      simp [awaits.2] at awaits
    simpa only [setCall, Function.update_of_ne different] using awaits.1

theorem Guarded.step {mount next : Mount} {id : Nat} {path : Path}
    {hash : Hash} {event : MountEvent} (guarded : Guarded id path hash mount)
    (alone : LeavesAlone id path mount event)
    (closed : WindowClosed id path mount event)
    (stepped : mount.step event = some next) : Guarded id path hash next := by
  cases event with
  | unlink other parent name => exact guarded.start stepped
  | rename other request => exact guarded.start stepped
  | link other ino newparent newname => exact guarded.start stepped
  | advance other now => exact guarded.advance alone stepped
  | refused other errno =>
      have same : ∃ call later, mount.call other = some call ∧
          call.awaitsCancel path = false ∧
          next = mount.setCall other mount.vfs later := by
        simp only [Mount.step, refuse] at stepped
        split at stepped <;> rename_i found
        · exact ⟨_, _, found, rfl, (Option.some.inj stepped).symm⟩
        · exact ⟨_, _, found, rfl, (Option.some.inj stepped).symm⟩
        · cases stepped
      obtain ⟨call, later, found, notAwaiting, rfl⟩ := same
      refine ⟨guarded.held, guarded.notInFlight, fun member => ?_⟩
      have awaits := guarded.queued member
      have different : id ≠ other := by
        rintro rfl
        rw [found] at awaits
        simp [notAwaiting] at awaits
      simpa only [setCall, Function.update_of_ne different] using awaits
  | load table =>
      obtain rfl := Option.some.inj stepped
      exact ⟨guarded.held, guarded.notInFlight, guarded.queued⟩
  | take =>
      obtain ⟨taken, tookDeletes, rfl⟩ := Option.map_eq_some_iff.mp stepped
      obtain rfl := FlushManager.takeDeletes_eq_some tookDeletes
      have notQueued : path ∉ mount.vfs.flushManager.pendingDeletes := by
        intro member
        have awaits := guarded.queued member
        rw [closed member] at awaits
        cases awaits
      refine ⟨guarded.held, ?_, fun member => absurd member List.not_mem_nil⟩
      intro number batch lookup
      dsimp only [setFlushManager] at lookup
      by_cases fresh : number = mount.vfs.flushManager.nextBatch
      · rw [fresh, Function.update_self] at lookup
        obtain rfl := Option.some.inj lookup
        exact notQueued
      · rw [Function.update_of_ne fresh] at lookup
        exact guarded.notInFlight number batch lookup
  | hubStart number =>
      obtain ⟨started, startedCall, rfl⟩ := Option.map_eq_some_iff.mp stepped
      obtain ⟨paths, found, rfl⟩ :=
        FlushManager.startHubCall_eq_some startedCall
      refine ⟨guarded.held, ?_, guarded.queued⟩
      intro other batch lookup
      dsimp only [setFlushManager] at lookup
      by_cases same : other = number
      · rw [same, Function.update_self] at lookup
        obtain rfl := Option.some.inj lookup
        have elsewhere : path ∉ paths := guarded.notInFlight number _ found
        exact elsewhere
      · rw [Function.update_of_ne same] at lookup
        exact guarded.notInFlight other batch lookup
  | hubDone number succeeded =>
      obtain ⟨finished, finishedCall, rfl⟩ := Option.map_eq_some_iff.mp stepped
      obtain ⟨paths, found, rfl⟩ :=
        FlushManager.finishHubCall_eq_some finishedCall
      have elsewhere : path ∉ paths := guarded.notInFlight number _ found
      refine ⟨?_, ?_, guarded.queued⟩
      · cases succeeded with
        | false => exact guarded.held
        | true =>
            have kept := batch_of_deletes paths mount.vfs.remote path
            rw [if_neg elsewhere] at kept
            simp only [found, Option.elim_some, DeleteBatch.paths, if_true,
              VirtualFs.deleteRemote]
            exact kept.trans guarded.held
      · intro other batch lookup
        dsimp only at lookup
        by_cases same : other = number
        · rw [same, Function.update_self] at lookup
          cases succeeded with
          | true => cases lookup
          | false =>
              obtain rfl := Option.some.inj lookup
              exact elsewhere
        · rw [Function.update_of_ne same] at lookup
          exact guarded.notInFlight other batch lookup
  | requeue number =>
      obtain ⟨returned, requeued, rfl⟩ := Option.map_eq_some_iff.mp stepped
      obtain ⟨paths, found, rfl⟩ := FlushManager.requeue_eq_some requeued
      refine ⟨guarded.held, ?_, ?_⟩
      · intro other batch lookup
        dsimp only [setFlushManager] at lookup
        by_cases same : other = number
        · rw [same, Function.update_self] at lookup
          cases lookup
        · rw [Function.update_of_ne same] at lookup
          exact guarded.notInFlight other batch lookup
      · intro member
        rcases List.mem_append.mp member with queued | back
        · exact guarded.queued queued
        · exact absurd back (guarded.notInFlight number _ found)

/-- From the moment when the batch of a rename or a link has left `hash` at
its destination, no delete that was queued earlier removes it: once the call
has returned, neither the queue nor a batch holds the path.  No batch may have
the path in flight when the batch is sent, and the queue may not be taken with
it before the cancellation. -/
theorem added_file_kept {start added final : Mount} {id : Nat} {now : Time}
    {path : Path} {hash : Hash} {after : List MountEvent}
    (sent : start.step (.advance id now) = some added)
    (destination : (added.call id).any (·.awaitsCancel path) = true)
    (held : added.vfs.remote path = some hash)
    (notInFlight : ∀ number batch,
      start.vfs.flushManager.batch number = some batch → path ∉ batch.paths)
    (closed : AllSteps step (WindowClosed id path) added after)
    (alone : AllSteps step (LeavesAlone id path) added after)
    (run : exec step added after = some final)
    (returned : final.call id = some (.returned none)) :
    final.vfs.remote path = some hash ∧
      path ∉ final.vfs.flushManager.pendingDeletes ∧
      ∀ number batch, final.vfs.flushManager.batch number = some batch →
        path ∉ batch.paths := by
  have guarded : Guarded id path hash added := by
    refine ⟨held, ?_, fun _ => destination⟩
    obtain ⟨call, _, advancedTo⟩ := Option.bind_eq_some_iff.mp sent
    obtain ⟨⟨vfs, later⟩, advanced, rfl⟩ :=
      Option.map_eq_some_iff.mp advancedTo
    intro number batch lookup
    apply notInFlight number batch
    rw [← (advanceCall_deletes advanced).1]
    exact lookup
  have atEnd : Guarded id path hash final :=
    exec_invariant
      (fun _ _ _ invariant good stepped =>
        Guarded.step invariant good.2 good.1 stepped)
      guarded (closed.and alone) run
  refine ⟨atEnd.held, ?_, atEnd.notInFlight⟩
  intro member
  have awaits := atEnd.queued member
  rw [returned] at awaits
  cases awaits

/-- The files `a` and `b` of the root, with the hashes `1` and `2`. -/
def twoFiles : Mount :=
  let first := InodeTable.new.insert rootInode ['a'] ['a'] .file 1 0
    (some ['1']) 420 0 0 0
  let second := first.2.insert rootInode ['b'] ['b'] .file 1 0 (some ['2'])
    420 0 0 0
  .new second.2 (Function.update (Function.update (fun _ => none) ['a']
    (some ['1'])) ['b'] (some ['2']))

/-- `b` is unlinked, and `a` is about to be moved there. -/
def movingOverUnlinked : List MountEvent :=
  [.unlink 0 rootInode ['b'], .advance 0 1, .advance 0 1,
    .rename 1 ⟨rootInode, ['a'], rootInode, ['b'], false⟩, .advance 1 1]

theorem added_file_kept_moved_over_unlinked :
    ((exec step twoFiles (movingOverUnlinked ++
        [.advance 1 2, .advance 1 3, .advance 1 4])).get (by decide)).vfs.remote
          ['b'] = some ['1'] := by
  have kept := @added_file_kept
    ((exec step twoFiles movingOverUnlinked).get (by decide))
    ((exec step twoFiles (movingOverUnlinked ++ [.advance 1 2])).get
      (by decide))
    ((exec step twoFiles (movingOverUnlinked ++
      [.advance 1 2, .advance 1 3, .advance 1 4])).get (by decide))
    1 2 ['b'] ['1'] [.advance 1 3, .advance 1 4] rfl rfl rfl
    (by rintro number batch ⟨⟩) (by decide) (by decide) rfl rfl
  exact kept.1

/-- The flush loop takes the delete of `b` before the link to `b` is sent, and
its Hub call ends after the link has returned. -/
theorem added_file_not_kept :
    ¬ ∀ (before after : List MountEvent) (start added final : Mount) (id : Nat)
      (now : Time) (path : Path) (hash : Hash),
      exec step twoFiles before = some start →
      start.step (.advance id now) = some added →
      (added.call id).any (·.awaitsCancel path) = true →
      added.vfs.remote path = some hash →
      AllSteps step (LeavesAlone id path) added after →
      exec step added after = some final →
      final.call id = some (.returned none) →
      path ∉ final.vfs.flushManager.pendingDeletes →
      (∀ number, final.vfs.flushManager.batch number = none) →
      final.vfs.remote path = some hash := by
  intro claim
  have kept := claim
    [.unlink 0 rootInode ['b'], .advance 0 1, .advance 0 1, .take,
      .link 1 2 rootInode ['b']]
    [.hubStart 0, .advance 1 3, .advance 1 4, .hubDone 0 true] _ _ _ 1 2 ['b']
    ['1'] rfl rfl rfl rfl (by decide) rfl rfl (by decide) ?_
  · cases kept
  · intro number
    cases number <;> rfl

end Mount

end HfMount.Vfs
