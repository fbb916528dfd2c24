import HfMount.Vfs.ReferencesKept
import HfMount.Lib.Transition

/-!
# Evictions keep what is in use

In a run in which no handle is opened or closed between a check of the handles
and what follows from it, and no eviction comes between a lookup and its reply,
an eviction never takes out an inode in use, the kernel knows no inode that has
gone, and the last close carries out every eviction that was deferred.
-/

namespace HfMount.Vfs

open SlashPath Inode Transition

namespace References

section

variable {state : References} {ino : Ino}

/-! ## Steps -/

theorem Apart.perm {calls : List RefCall} {event : RefEvent}
    (apart : state.Apart event) (perm : state.calls.Perm calls) :
    { state with calls }.Apart event := by
  cases event with
  | next call =>
      cases call with
      | sweeping candidates toEvict =>
          cases candidates <;> simp_all [Apart, perm.mem_iff]
      | _ => simp_all [Apart, perm.mem_iff]
  | _ => trivial

theorem extends_createEntry (table : InodeTable) (parent : Ino) (name : Name)
    (fullPath : Path) (mode uid gid : Nat) (now : Time) :
    table.Extends (createEntry table parent name fullPath mode uid gid now).2 := by
  apply (table.extends_insert parent name fullPath .file 0 now none mode uid gid
    now).trans
  apply (InodeTable.extends_modify _ _ _).trans
  · apply InodeTable.extends_modify
    exact fun entry => ⟨rfl, Nat.le_refl _, rfl, rfl, rfl⟩
  · exact fun entry => ⟨rfl, Nat.le_refl _, rfl, rfl, rfl⟩

theorem Counted.created (counted : state.Counted) (parent : Ino) (name : Name)
    (fullPath : Path) (mode uid gid : Nat) (now : Time) :
    (createEntry state.table parent name fullPath mode uid gid now).1 <
      (createEntry state.table parent name fullPath mode uid gid
        now).2.nextInode := by
  simp only [createEntry, InodeTable.touchParent, InodeTable.nextInode_modify,
    InodeTable.insert]
  split
  · rename_i existing mapped
    rw [InodeTable.nextInode_modify]
    exact counted.paths mapped
  · rw [InodeTable.nextInode_modify]
    exact Nat.lt_succ_self _

/-- The kernel sends a `forget`. -/
theorem Counted.sends (counted : state.Counted) {count : Nat}
    (given : count ≤ state.known ino) :
    ({ state with
      known := Function.update state.known ino (state.known ino - count) }.goOn
        (.forgetting ino count)).Counted := by
  refine ⟨counted.keyed, counted.paths, ?_, counted.opened, ?_, ?_, ?_⟩
  · intro call member other isTarget
    rcases List.mem_cons.mp member with rfl | earlier
    · simp only [RefCall.target] at isTarget
      split at isTarget <;> rename_i some
      · cases isTarget
      · obtain rfl := Option.some.inj isTarget
        obtain ⟨entry, found⟩ := Option.isSome_iff_exists.mp
          (counted.known ino (by omega))
        exact (counted.keyed found).2.1
    · exact counted.targets call earlier isTarget
  · intro other entry found
    have right := counted.counts found
    have lookups := right.lookups
    refine ⟨?_, ?_, ?_, ?_, ?_⟩
    · by_cases same : other = ino
      · subst same
        have owed : RefCall.owed other (.forgetting other count) = count :=
          if_pos rfl
        simp only [goOn, List.map_cons, List.sum_cons, owed,
          Function.update_self]
        omega
      · have owed : RefCall.owed other (.forgetting ino count) = 0 :=
          if_neg (Ne.symm same)
        simp only [goOn, List.map_cons, List.sum_cons, owed,
          Function.update_of_ne same]
        omega
    · have handles := right.handles
      simpa [goOn, RefCall.closing] using handles
    · intro acts
      apply right.unopened
      simpa [goOn] using acts
    · intro isDeferring
      apply right.deferring
      simpa [goOn] using isDeferring
    · intro isPending
      have waits := right.pending isPending
      simpa [goOn] using waits
  · intro other isReplying
    apply counted.replying
    simpa [goOn] using isReplying
  · intro other isKnown
    apply counted.known
    by_cases same : other = ino
    · subst same
      simp only [goOn, Function.update_self] at isKnown
      omega
    · simpa only [goOn, Function.update_of_ne same] using isKnown

/-- A release takes its handle from the open files. -/
theorem Counted.releases (counted : state.Counted)
    (opened : ino ∈ state.handles) :
    ({ state with handles := state.handles.erase ino }.goOn
      (.releasing ino)).Counted := by
  refine ⟨counted.keyed, counted.paths, ?_, ?_, ?_, ?_, counted.known⟩
  · intro call member other isTarget
    rcases List.mem_cons.mp member with rfl | earlier
    · obtain rfl := Option.some.inj isTarget
      exact counted.opened _ opened
    · exact counted.targets call earlier isTarget
  · exact fun other member =>
      counted.opened other (List.mem_of_mem_erase member)
  · intro other entry found
    have right := counted.counts found
    have handles := right.handles
    refine ⟨?_, ?_, ?_, ?_, ?_⟩
    · have lookups := right.lookups
      simpa [goOn, RefCall.owed] using lookups
    · by_cases same : other = ino
      · subst same
        have closing : RefCall.closing other (.releasing other) = 1 :=
          if_pos rfl
        have positive := List.count_pos_iff.mpr opened
        simp only [goOn, List.map_cons, List.sum_cons, closing,
          List.count_erase_self]
        omega
      · have closing : RefCall.closing other (.releasing ino) = 0 :=
          if_neg (Ne.symm same)
        simp only [goOn, List.map_cons, List.sum_cons, closing,
          List.count_erase_of_ne same]
        omega
    · intro acts
      apply right.unopened
      simpa [goOn] using acts
    · intro isDeferring
      apply right.deferring
      simpa [goOn] using isDeferring
    · intro isPending
      have waits := right.pending isPending
      simpa [goOn] using waits
  · intro other isReplying
    apply counted.replying
    simpa [goOn] using isReplying

/-- Apart from the steps of calls, no step takes an inode out. -/
theorem step_extends {overlay : Bool} {event : RefEvent} {next : References}
    (stepped : state.step overlay event = some next)
    (notCall : ∀ call, event ≠ .next call) :
    state.table.Extends next.table := by
  have unlisted : ∀ {calls : References}, calls.table = state.table →
      state.table.Extends calls.table := by
    intro calls same
    rw [same]
    exact .refl _
  cases event with
  | insert parent name fullPath kind size mtime xetHash mode uid gid now =>
      obtain rfl := Option.some.inj stepped
      exact state.table.extends_insert ..
  | edit ino edited =>
      simp only [step] at stepped
      split at stepped
      · cases stepped
      · rename_i entry found
        split at stepped
        · rename_i same
          obtain rfl := Option.some.inj stepped
          apply InodeTable.extends_put found
          obtain ⟨inode, _, nlink, eviction⟩ := same
          exact ⟨inode, Nat.le_of_eq nlink.symm, by rw [eviction],
            by rw [eviction], by rw [eviction]⟩
        · cases stepped
  | touch ino =>
      obtain rfl := Option.some.inj stepped
      exact state.table.extends_touch ino
  | write ino newEnd =>
      simp only [step] at stepped
      split at stepped
      · obtain rfl := Option.some.inj stepped
        apply InodeTable.extends_modify
        exact fun entry => ⟨rfl, Nat.le_refl _, rfl, rfl, rfl⟩
      · cases stepped
  | commit ino hash size generation now =>
      obtain rfl := Option.some.inj stepped
      apply InodeTable.extends_modify
      exact fun entry => entry.sameCounts_applyCommit hash size generation now
  | create parent name mode uid gid now =>
      simp only [step] at stepped
      split at stepped
      · cases stepped
      · split at stepped
        · obtain rfl := Option.some.inj stepped
          exact extends_createEntry ..
        · cases stepped
  | openDirty ino truncate now =>
      simp only [step] at stepped
      split at stepped
      · obtain rfl := Option.some.inj stepped
        apply InodeTable.extends_modify
        exact fun entry => ⟨rfl, Nat.le_refl _, rfl, rfl, rfl⟩
      · cases stepped
  | next call => exact absurd rfl (notCall call)
  | _ =>
      simp only [step] at stepped
      split at stepped
      · obtain rfl := Option.some.inj stepped
        exact unlisted rfl
      · cases stepped

theorem step_counted {overlay : Bool} (state : References) (event : RefEvent)
    (next : References) (counted : state.Counted) (apart : state.Apart event)
    (stepped : state.step overlay event = some next) : next.Counted := by
  have inTable : ∀ {ino}, (state.table.get ino).isSome = true →
      ino < state.table.nextInode := by
    intro ino present
    obtain ⟨entry, found⟩ := Option.isSome_iff_exists.mp present
    exact (counted.keyed found).2.1
  have ext := step_extends stepped
  cases event with
  | insert parent name fullPath kind size mtime xetHash mode uid gid now =>
      obtain rfl := Option.some.inj stepped
      exact counted.extends (ext (by simp))
  | edit ino edited =>
      simp only [step] at stepped
      split at stepped
      · cases stepped
      · split at stepped
        · obtain rfl := Option.some.inj stepped
          exact counted.extends (ext (by simp))
        · cases stepped
  | touch ino =>
      obtain rfl := Option.some.inj stepped
      exact counted.extends (ext (by simp))
  | write ino newEnd =>
      simp only [step] at stepped
      split at stepped
      · obtain rfl := Option.some.inj stepped
        exact counted.extends (ext (by simp))
      · cases stepped
  | commit ino hash size generation now =>
      obtain rfl := Option.some.inj stepped
      exact counted.extends (ext (by simp))
  | find ino =>
      simp only [step] at stepped
      split at stepped
      · rename_i present
        obtain rfl := Option.some.inj stepped
        apply counted.begins <;>
          simp [RefCall.owed, RefCall.closing, RefCall.target]
        · exact inTable present
        · exact present
      · cases stepped
  | create parent name mode uid gid now =>
      simp only [step] at stepped
      split at stepped
      · cases stepped
      · split at stepped
        · obtain rfl := Option.some.inj stepped
          apply (counted.extends (extends_createEntry ..)).begins <;>
            simp [RefCall.owed, RefCall.closing, RefCall.target]
          exact counted.created ..
        · cases stepped
  | openFile ino =>
      simp only [step] at stepped
      split at stepped
      · rename_i may
        obtain rfl := Option.some.inj stepped
        apply counted.begins <;>
          simp [RefCall.owed, RefCall.closing, RefCall.target]
        exact inTable may.2
      · cases stepped
  | openDirty ino truncate now =>
      simp only [step] at stepped
      split at stepped
      · obtain rfl := Option.some.inj stepped
        exact counted.extends (ext (by simp))
      · cases stepped
  | openFails ino =>
      simp only [step] at stepped
      split at stepped
      · rename_i member
        obtain rfl := Option.some.inj stepped
        apply (counted.first member).ends <;>
          simp [RefCall.owed, RefCall.closing]
      · cases stepped
  | forget ino count =>
      simp only [step] at stepped
      split at stepped
      · rename_i given
        obtain rfl := Option.some.inj stepped
        exact counted.sends given
      · cases stepped
  | release ino =>
      simp only [step] at stepped
      split at stepped
      · rename_i opened
        obtain rfl := Option.some.inj stepped
        exact counted.releases opened
      · cases stepped
  | sweep softLimit =>
      simp only [step] at stepped
      split at stepped
      · obtain rfl := Option.some.inj stepped
        apply counted.begins <;>
          simp [RefCall.owed, RefCall.closing, RefCall.target]
      · cases stepped
  | stopSweep candidates toEvict =>
      simp only [step] at stepped
      split at stepped
      · rename_i member
        obtain rfl := Option.some.inj stepped
        apply Counted.begins
        · apply (counted.first member).ends <;>
            simp [RefCall.owed, RefCall.closing]
        all_goals simp [RefCall.owed, RefCall.closing, RefCall.target]
      · cases stepped
  | next call =>
      simp only [step] at stepped
      split at stepped
      · rename_i member
        obtain rfl := Option.some.inj stepped
        apply (counted.first member).goesOn
        exact apart.perm (List.perm_cons_erase member)
      · cases stepped

/-! ## What a step removes -/

theorem Counted.unused (counted : state.Counted) {entry : InodeEntry}
    (found : state.table.get ino = some entry)
    (unreferenced : entry.Unreferenced)
    (closed : entry.eviction.openHandles = 0) :
    entry.eviction.nlookup = 0 ∧ entry.eviction.openHandles = 0 ∧
      ino ∉ state.handles ∧ entry.isDirty = false ∧
      entry.pendingDeletes = [] := by
  refine ⟨unreferenced.nlookup, closed, ?_, unreferenced.clean,
    unreferenced.noDeletes⟩
  intro opened
  have positive := List.count_pos_iff.mpr opened
  have handles := (counted.counts found).handles
  omega

theorem removesUnused_of_stays {next : References}
    (stays : ∀ {ino}, (state.table.get ino).isSome = true →
      (next.table.get ino).isSome = true) : state.RemovesUnused next := by
  intro ino entry found gone
  have present := stays (Option.isSome_iff_exists.mpr ⟨entry, found⟩)
  rw [gone] at present
  cases present

theorem stays_modify (table : InodeTable) (target : Ino)
    (change : InodeEntry → InodeEntry) {ino : Ino}
    (present : (table.get ino).isSome = true) :
    ((table.modify target change).get ino).isSome = true := by
  rw [InodeTable.get_modify]
  split <;> rename_i same
  · rw [Option.isSome_map, ← same]
    exact present
  · exact present

/-- What an eviction takes out is what it names. -/
theorem removesUnused_of_evicts {next : References} {gone : Ino → Prop}
    (evicts : state.table.Evicts gone next.table)
    (unused : ∀ {ino entry}, gone ino → state.table.get ino = some entry →
      entry.eviction.nlookup = 0 ∧ entry.eviction.openHandles = 0 ∧
        ino ∉ state.handles ∧ entry.isDirty = false ∧
        entry.pendingDeletes = []) : state.RemovesUnused next := by
  intro ino entry found absent
  by_cases isGone : gone ino
  · exact unused isGone found
  · have present := evicts.stays isGone
      (Option.isSome_iff_exists.mpr ⟨entry, found⟩)
    rw [absent] at present
    cases present

theorem Counted.removesOne (counted : state.Counted) {entry : InodeEntry}
    (found : state.table.get ino = some entry)
    (unreferenced : (state.table.get ino).any (·.isUnreferenced) = true)
    (acts : .evicting ino ∈ state.calls ∨ .reaping ino ∈ state.calls) :
    entry.eviction.nlookup = 0 ∧ entry.eviction.openHandles = 0 ∧
      ino ∉ state.handles ∧ entry.isDirty = false ∧
      entry.pendingDeletes = [] := by
  rw [found] at unreferenced
  exact counted.unused found (InodeEntry.isUnreferenced_iff.mp unreferenced)
    ((counted.counts found).unopened acts)

theorem Counted.advance_removes {overlay : Bool} {call : RefCall}
    (counted : state.Counted) (member : call ∈ state.calls) :
    state.RemovesUnused
      ({ state with calls := state.calls.erase call }.advance overlay
        call) := by
  cases call with
  | replying ino =>
      apply removesUnused_of_stays
      exact stays_modify _ _ _
  | creating ino =>
      apply removesUnused_of_stays
      intro other present
      simp only [advance]
      split <;> exact stays_modify _ _ _ present
  | opening ino =>
      apply removesUnused_of_stays
      exact stays_modify _ _ _
  | forgetting ino count =>
      apply removesUnused_of_stays
      intro other present
      simp only [advance]
      split <;> exact stays_modify _ _ _ present
  | forgotten ino =>
      apply removesUnused_of_stays
      intro other present
      simp only [advance]
      split <;> exact present
  | deferring ino =>
      apply removesUnused_of_stays
      exact stays_modify _ _ _
  | evicting ino =>
      apply removesUnused_of_evicts (state.table.evicts_evictIfSafe ino)
      rintro other entry ⟨rfl, unreferenced⟩ found
      exact counted.removesOne found unreferenced (Or.inl member)
  | releasing ino =>
      apply removesUnused_of_stays
      exact stays_modify _ _ _
  | dropped ino =>
      apply removesUnused_of_stays
      intro other present
      simp only [advance]
      split <;> exact present
  | reaping ino =>
      have table : (state.table.reapOnLastRelease overlay ino).table = _ :=
        InodeTable.reapOnLastRelease_table counted.linked
      intro other entry found absent
      simp only [advance, table] at absent
      have taken : ∀ {other}, (state.table.get other).isSome = true →
          ((state.table.takeEvictPending ino).2.get other).isSome = true :=
        stays_modify _ _ _
      have present := taken (Option.isSome_iff_exists.mpr ⟨entry, found⟩)
      split at absent
      · have evicts :=
          (state.table.takeEvictPending ino).2.evicts_evictIfSafe ino
        by_cases gone : other = ino ∧ ((state.table.takeEvictPending ino).2.get
            ino).any (·.isUnreferenced) = true
        · obtain ⟨rfl, unreferenced⟩ := gone
          rw [any_isUnreferenced_takeEvictPending] at unreferenced
          exact counted.removesOne found unreferenced (Or.inr member)
        · have stays := evicts.stays gone present
          rw [absent] at stays
          cases stays
      · rw [absent] at present
        cases present
  | sweeping candidates toEvict =>
      cases candidates with
      | cons first later =>
          apply removesUnused_of_stays
          exact fun present => present
      | nil =>
          have evicts := state.table.evicts_evictBatchIfSafe
            (toEvict.take evictChunk)
          have unused : ∀ {ino entry}, ino ∈ (state.table.evictedEntries
              (toEvict.take evictChunk)).map (·.inode) →
              state.table.get ino = some entry →
              entry.eviction.nlookup = 0 ∧ entry.eviction.openHandles = 0 ∧
                ino ∉ state.handles ∧ entry.isDirty = false ∧
                entry.pendingDeletes = [] := by
            intro ino entry gone found
            obtain ⟨evicted, isEvicted, rfl⟩ := List.mem_map.mp gone
            obtain ⟨foundEvicted, unreferenced, closed⟩ :=
              counted.evicted isEvicted
            obtain rfl := Option.some.inj (found.symm.trans foundEvicted)
            exact counted.unused found unreferenced closed
          simp only [advance]
          split <;> exact removesUnused_of_evicts evicts unused

theorem Counted.removesUnused {overlay : Bool} {event : RefEvent}
    {next : References} (counted : state.Counted)
    (stepped : state.step overlay event = some next) :
    state.RemovesUnused next := by
  by_cases isCall : ∃ call, event = .next call
  · obtain ⟨call, rfl⟩ := isCall
    simp only [step] at stepped
    split at stepped
    · rename_i member
      obtain rfl := Option.some.inj stepped
      exact counted.advance_removes member
    · cases stepped
  · have ext := step_extends stepped fun call same => isCall ⟨call, same⟩
    exact removesUnused_of_stays ext.stays

/-- The last close evicts what was deferred. -/
theorem Counted.evictsDeferred {overlay : Bool} {event : RefEvent}
    {next : References} (counted : state.Counted)
    (stepped : state.step overlay event = some next) :
    state.EvictsDeferred event next := by
  rintro ino entry rfl found isPending evictable
  simp only [step] at stepped
  split at stepped
  · obtain rfl := Option.some.inj stepped
    have flagged : (state.table.get ino).any (·.eviction.evictPending) =
        true := by
      rw [found]
      exact isPending
    have taken : (state.table.takeEvictPending ino).2.get ino =
        some { entry with
          eviction := { entry.eviction with evictPending := false } } := by
      rw [InodeTable.takeEvictPending, InodeTable.get_modifyEviction, if_pos rfl,
        found]
      rfl
    have table : (state.table.reapOnLastRelease overlay ino).table = _ :=
      InodeTable.reapOnLastRelease_table counted.linked
    simp only [advance, table, flagged, if_true]
    rw [InodeTable.evictIfSafe_of_unreferenced taken
      (InodeEntry.isEvictable_iff.mp evictable).1, InodeTable.get_modify]
    split
    · rename_i isParent
      rw [← isParent]
      simp
    · simp
  · cases stepped

/-! ## Runs -/

theorem counted_mounted : mounted.Counted := by
  refine ⟨?_, ?_, ?_, ?_, ?_, ?_, ?_⟩
  · intro ino entry found
    obtain ⟨rfl, rfl⟩ := InodeTable.eq_root_of_get_new found
    decide
  · intro path ino mapped
    by_cases here : path = []
    · subst here
      obtain rfl := Option.some.inj mapped
      decide
    · simp [mounted, InodeTable.new, Function.update_of_ne here] at mapped
  · intro call member
    cases member
  · intro ino member
    cases member
  · intro ino entry found
    obtain ⟨rfl, rfl⟩ := InodeTable.eq_root_of_get_new found
    refine ⟨rfl, rfl, fun _ => rfl, ?_, ?_⟩
    · intro member
      cases member
    · rintro ⟨⟩
  · intro ino member
    cases member
  · intro ino known
    cases known

end

/-- In every run in which no handle comes or goes between a check of the
handles and what follows from it, and no eviction comes between a lookup and
its reply, evictions spare what is in use, what the kernel knows is in the
table, and deferred evictions are carried out by the last close. -/
theorem evictions_spare_references {overlay : Bool} {state : References}
    {events : List RefEvent}
    (run : exec (step overlay) mounted events = some state)
    (apart : AllSteps (step overlay) Apart mounted events) :
    state.KeepsKnown ∧ state.DefersToRelease ∧
      ∀ event next, state.step overlay event = some next →
        state.RemovesUnused next ∧ state.EvictsDeferred event next := by
  have counted : state.Counted :=
    exec_invariant step_counted counted_mounted apart run
  refine ⟨counted.known, counted.defersToRelease, ?_⟩
  intro event next stepped
  exact ⟨counted.removesUnused stepped, counted.evictsDeferred stepped⟩

/-- A listing brings a file in, and the kernel looks it up and opens it. -/
def openedFile : List RefEvent :=
  [.insert rootInode ['f'] ['f'] .file 1 0 (some ['h']) 420 0 0 0, .find 2,
    .next (.replying 2), .openFile 2, .next (.opening 2)]

/-- The kernel forgets the open file, and its last close evicts it. -/
def forgottenWhileOpen : List RefEvent :=
  openedFile ++
    [.forget 2 1, .next (.forgetting 2 1), .next (.forgotten 2),
      .next (.deferring 2), .release 2, .next (.releasing 2),
      .next (.dropped 2), .next (.reaping 2)]

theorem evictions_spare_references_forgotten :
    ((exec (step false) mounted forgottenWhileOpen).get rfl).KeepsKnown ∧
      ((exec (step false) mounted forgottenWhileOpen).get
        rfl).DefersToRelease ∧
      ∀ event next,
        ((exec (step false) mounted forgottenWhileOpen).get rfl).step false
          event = some next →
        ((exec (step false) mounted forgottenWhileOpen).get rfl).RemovesUnused
          next ∧
        ((exec (step false) mounted forgottenWhileOpen).get rfl).EvictsDeferred
          event next :=
  evictions_spare_references (Option.some_get _).symm (by decide)

/-- A `forget` has seen no handle; the file is looked up and opened again, and
forgotten by a second `forget`, before the first one evicts. -/
def openedBeforeEviction : List RefEvent :=
  [.insert rootInode ['f'] ['f'] .file 1 0 (some ['h']) 420 0 0 0, .find 2,
    .next (.replying 2), .forget 2 1, .next (.forgetting 2 1),
    .next (.forgotten 2), .find 2, .next (.replying 2), .openFile 2,
    .next (.opening 2), .forget 2 1, .next (.forgetting 2 1)]

/-- A lookup has found the file when a `forget` evicts it. -/
def evictedBeforeReply : List RefEvent :=
  [.insert rootInode ['f'] ['f'] .file 1 0 (some ['h']) 420 0 0 0, .find 2,
    .next (.replying 2), .forget 2 1, .next (.forgetting 2 1),
    .next (.forgotten 2), .find 2, .next (.evicting 2), .next (.replying 2)]

/-- A `forget` has seen a handle, and leaves its flag after the last close. -/
def deferredAfterClose : List RefEvent :=
  openedFile ++
    [.forget 2 1, .next (.forgetting 2 1), .next (.forgotten 2), .release 2,
      .next (.releasing 2), .next (.dropped 2), .next (.reaping 2),
      .next (.deferring 2)]

theorem evictions_do_not_spare :
    (¬ ∀ (overlay : Bool) (state next : References) (events : List RefEvent)
      (event : RefEvent), exec (step overlay) mounted events = some state →
      state.step overlay event = some next → state.RemovesUnused next) ∧
    (¬ ∀ (overlay : Bool) (state : References) (events : List RefEvent),
      exec (step overlay) mounted events = some state → state.KeepsKnown) ∧
    ¬ ∀ (overlay : Bool) (state : References) (events : List RefEvent)
      (ino : Ino) (entry : InodeEntry),
      exec (step overlay) mounted events = some state →
      state.table.get ino = some entry →
      entry.eviction.evictPending = true → entry.isEvictable = true →
      .dropped ino ∈ state.calls ∨ .reaping ino ∈ state.calls := by
  refine ⟨?_, ?_, ?_⟩
  · intro claim
    have unused := claim false _ _ openedBeforeEviction (.next (.evicting 2))
      rfl rfl 2 _ rfl (by decide)
    exact absurd unused.2.1 (by decide)
  · intro claim
    have known := claim false _ evictedBeforeReply rfl 2 (by decide)
    exact absurd known (by decide)
  · intro claim
    have waits := claim false _ deferredAfterClose 2 _ rfl rfl (by decide)
      (by decide)
    exact absurd waits (by decide)

end References

end HfMount.Vfs
