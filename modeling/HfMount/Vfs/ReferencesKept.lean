import HfMount.Vfs.ReferenceCounts

/-!
# The counts of an inode and the calls on it

The two counts of an inode are what the kernel knows and what is open, plus
what calls have yet to count.  What a `forget` or a release has seen of the
handles is so when it acts on it, and a reply finds its inode.  Each step of a
call keeps this, if no handle comes or goes and no eviction comes in between.
-/

namespace HfMount.Vfs

open SlashPath Inode

namespace RefCall

/-- The lookups that a `forget` has yet to take off the count. -/
def owed (ino : Ino) : RefCall → Nat
  | .forgetting other count => if other = ino then count else 0
  | _ => 0

/-- The handle that a release has yet to take off the count. -/
def closing (ino : Ino) : RefCall → Nat
  | .releasing other => if other = ino then 1 else 0
  | _ => 0

/-- The inode that a call has seen in the table. -/
def target : RefCall → Option Ino
  | .forgetting ino count => if count = 0 then none else some ino
  | .replying ino | .creating ino | .opening ino | .forgotten ino
  | .deferring ino | .evicting ino | .releasing ino | .dropped ino
  | .reaping ino => some ino
  | .sweeping _ _ => none

end RefCall

namespace References

/-- The counts of one inode are what the calls and the open files make them,
and what calls have seen of its handles is so. -/
structure CountsOf (state : References) (ino : Ino)
    (counts : EvictionState) : Prop where
  lookups : counts.nlookup =
    state.known ino + (state.calls.map (·.owed ino)).sum
  handles : counts.openHandles =
    state.handles.count ino + (state.calls.map (·.closing ino)).sum
  unopened : .evicting ino ∈ state.calls ∨ .reaping ino ∈ state.calls →
    counts.openHandles = 0
  deferring : .deferring ino ∈ state.calls → 0 < counts.openHandles
  pending : counts.evictPending = true → 0 < counts.openHandles ∨
    .dropped ino ∈ state.calls ∨ .reaping ino ∈ state.calls

structure Counted (state : References) : Prop where
  keyed : ∀ {ino entry}, state.table.get ino = some entry →
    entry.inode = ino ∧ ino < state.table.nextInode ∧ 0 < entry.nlink
  paths : ∀ {path ino}, state.table.pathToInode path = some ino →
    ino < state.table.nextInode
  targets : ∀ call ∈ state.calls, ∀ {ino}, call.target = some ino →
    ino < state.table.nextInode
  opened : ∀ ino ∈ state.handles, ino < state.table.nextInode
  counts : ∀ {ino entry}, state.table.get ino = some entry →
    state.CountsOf ino entry.eviction
  replying : ∀ {ino}, .replying ino ∈ state.calls →
    (state.table.get ino).isSome = true
  known : state.KeepsKnown

section

variable {state : References} {ino : Ino} {counts : EvictionState}

theorem Counted.defersToRelease (counted : state.Counted) :
    state.DefersToRelease :=
  fun _ _ found => (counted.counts found).pending

/-- The order of the calls does not matter. -/
theorem CountsOf.perm {calls : List RefCall} (right : state.CountsOf ino counts)
    (perm : state.calls.Perm calls) :
    { state with calls }.CountsOf ino counts := by
  refine ⟨?_, ?_, ?_, ?_, ?_⟩
  · rw [right.lookups, (perm.map _).sum_nat]
  · rw [right.handles, (perm.map _).sum_nat]
  · intro acts
    exact right.unopened (acts.imp perm.mem_iff.mpr perm.mem_iff.mpr)
  · exact fun defers => right.deferring (perm.mem_iff.mpr defers)
  · intro isPending
    exact (right.pending isPending).imp_right
      (Or.imp perm.mem_iff.mp perm.mem_iff.mp)

theorem Counted.perm {calls : List RefCall} (counted : state.Counted)
    (perm : state.calls.Perm calls) : { state with calls }.Counted := by
  refine ⟨counted.keyed, counted.paths, ?_, counted.opened,
    fun found => (counted.counts found).perm perm, ?_, counted.known⟩
  · exact fun call member => counted.targets call (perm.mem_iff.mpr member)
  · exact fun isReplying => counted.replying (perm.mem_iff.mpr isReplying)

/-- A call that is on the list comes first. -/
theorem Counted.first (counted : state.Counted) {call : RefCall}
    (member : call ∈ state.calls) :
    ({ state with calls := state.calls.erase call }.goOn call).Counted :=
  counted.perm (List.perm_cons_erase member)

/-! ## Calls that begin and end -/

section

variable {call : RefCall}

theorem CountsOf.ends (right : (state.goOn call).CountsOf ino counts)
    (owed : call.owed ino = 0) (closing : call.closing ino = 0)
    (waits : counts.evictPending = true →
      call = .dropped ino ∨ call = .reaping ino → 0 < counts.openHandles) :
    state.CountsOf ino counts := by
  have member : ∀ {other}, other ∈ state.calls →
      other ∈ (state.goOn call).calls :=
    fun isMember => List.mem_cons_of_mem _ isMember
  refine ⟨?_, ?_, fun acts => right.unopened (acts.imp member member),
    fun defers => right.deferring (member defers), ?_⟩
  · have lookups := right.lookups
    simpa [goOn, owed] using lookups
  · have handles := right.handles
    simpa [goOn, closing] using handles
  · intro isPending
    rcases right.pending isPending with opened | dropped | reaping
    · exact Or.inl opened
    · rcases List.mem_cons.mp dropped with same | earlier
      · exact Or.inl (waits isPending (Or.inl same.symm))
      · exact Or.inr (Or.inl earlier)
    · rcases List.mem_cons.mp reaping with same | earlier
      · exact Or.inl (waits isPending (Or.inr same.symm))
      · exact Or.inr (Or.inr earlier)

/-- A call that counts nothing goes off the list. -/
theorem Counted.ends (counted : (state.goOn call).Counted)
    (owed : ∀ ino, call.owed ino = 0) (closing : ∀ ino, call.closing ino = 0)
    (waits : ∀ {ino entry}, state.table.get ino = some entry →
      entry.eviction.evictPending = true →
      call = .dropped ino ∨ call = .reaping ino →
      0 < entry.eviction.openHandles) : state.Counted := by
  refine ⟨counted.keyed, counted.paths, ?_, counted.opened, ?_, ?_, counted.known⟩
  · exact fun other member =>
      counted.targets other (List.mem_cons_of_mem _ member)
  · exact fun found => (counted.counts found).ends (owed _) (closing _)
      (waits found)
  · exact fun isReplying =>
      counted.replying (List.mem_cons_of_mem _ isReplying)

theorem CountsOf.begins (right : state.CountsOf ino counts)
    (owed : call.owed ino = 0) (closing : call.closing ino = 0)
    (unopened : call = .evicting ino ∨ call = .reaping ino →
      counts.openHandles = 0)
    (deferring : call = .deferring ino → 0 < counts.openHandles) :
    (state.goOn call).CountsOf ino counts := by
  refine ⟨?_, ?_, ?_, ?_, ?_⟩
  · have lookups := right.lookups
    simpa [goOn, owed] using lookups
  · have handles := right.handles
    simpa [goOn, closing] using handles
  · rintro (evicting | reaping)
    · rcases List.mem_cons.mp evicting with same | earlier
      · exact unopened (Or.inl same.symm)
      · exact right.unopened (Or.inl earlier)
    · rcases List.mem_cons.mp reaping with same | earlier
      · exact unopened (Or.inr same.symm)
      · exact right.unopened (Or.inr earlier)
  · intro defers
    rcases List.mem_cons.mp defers with same | earlier
    · exact deferring same.symm
    · exact right.deferring earlier
  · intro isPending
    exact (right.pending isPending).imp_right
      (Or.imp (List.mem_cons_of_mem _) (List.mem_cons_of_mem _))

/-- A call that counts nothing begins, and what it has seen is so. -/
theorem Counted.begins (counted : state.Counted)
    (owed : ∀ ino, call.owed ino = 0) (closing : ∀ ino, call.closing ino = 0)
    (target : ∀ {ino}, call.target = some ino → ino < state.table.nextInode)
    (unopened : ∀ {ino entry}, state.table.get ino = some entry →
      call = .evicting ino ∨ call = .reaping ino →
      entry.eviction.openHandles = 0)
    (deferring : ∀ {ino entry}, state.table.get ino = some entry →
      call = .deferring ino → 0 < entry.eviction.openHandles)
    (replying : ∀ {ino}, call = .replying ino →
      (state.table.get ino).isSome = true) : (state.goOn call).Counted := by
  refine ⟨counted.keyed, counted.paths, ?_, counted.opened, ?_, ?_, counted.known⟩
  · intro other isMember ino isTarget
    rcases List.mem_cons.mp isMember with rfl | earlier
    · exact target isTarget
    · exact counted.targets other earlier isTarget
  · exact fun found => (counted.counts found).begins (owed _) (closing _)
      (unopened found) (deferring found)
  · intro ino isReplying
    rcases List.mem_cons.mp isReplying with same | earlier
    · exact replying same.symm
    · exact counted.replying earlier

end

/-! ## Changes of the table -/

/-- The counts of an inode that is new. -/
theorem Counted.fresh (counted : state.Counted)
    (fresh : state.table.nextInode ≤ ino) (nlookup : counts.nlookup = 0)
    (openHandles : counts.openHandles = 0)
    (isPending : counts.evictPending = false) :
    state.CountsOf ino counts := by
  have outside : ∀ call ∈ state.calls, call.target ≠ some ino := by
    intro call member isTarget
    exact Nat.not_le_of_lt (counted.targets call member isTarget) fresh
  have known : state.known ino = 0 := by
    by_contra known
    have present := counted.known ino (Nat.pos_of_ne_zero known)
    obtain ⟨entry, found⟩ := Option.isSome_iff_exists.mp present
    exact Nat.not_le_of_lt (counted.keyed found).2.1 fresh
  have handles : state.handles.count ino = 0 := by
    apply List.count_eq_zero_of_not_mem
    intro member
    exact Nat.not_le_of_lt (counted.opened ino member) fresh
  refine ⟨?_, ?_, fun _ => openHandles, ?_, ?_⟩
  · rw [nlookup, known, Nat.zero_add, eq_comm]
    apply List.sum_eq_zero_iff_forall_eq_nat.mpr
    intro value member
    obtain ⟨call, isCall, rfl⟩ := List.mem_map.mp member
    have notTarget := outside call isCall
    cases call with
    | forgetting other count =>
        by_cases same : other = ino
        · simp_all [RefCall.owed, RefCall.target]
        · simp [RefCall.owed, same]
    | _ => rfl
  · rw [openHandles, handles, Nat.zero_add, eq_comm]
    apply List.sum_eq_zero_iff_forall_eq_nat.mpr
    intro value member
    obtain ⟨call, isCall, rfl⟩ := List.mem_map.mp member
    have notTarget := outside call isCall
    cases call with
    | releasing other =>
        by_cases same : other = ino
        · simp_all [RefCall.target]
        · simp [RefCall.closing, same]
    | _ => rfl
  · exact fun defers => absurd rfl (outside _ defers)
  · rw [isPending]
    rintro ⟨⟩

theorem CountsOf.same {earlier entry : InodeEntry} {table : InodeTable}
    (right : state.CountsOf ino earlier.eviction)
    (same : earlier.SameCounts entry) :
    { state with table }.CountsOf ino entry.eviction := by
  refine ⟨same.nlookup.trans right.lookups,
    same.openHandles.trans right.handles,
    fun acts => same.openHandles.trans (right.unopened acts), ?_, ?_⟩
  · rw [same.openHandles]
    exact right.deferring
  · rw [same.pending, same.openHandles]
    exact right.pending

theorem Counted.extends (counted : state.Counted) {table : InodeTable}
    (ext : state.table.Extends table) : { state with table }.Counted := by
  have next := ext.next
  refine ⟨?_, ?_, ?_, ?_, ?_,
    fun isReplying => ext.stays (counted.replying isReplying),
    fun ino known => ext.stays (counted.known ino known)⟩
  · intro ino entry found
    rcases ext.source found with ⟨earlier, foundEarlier, same⟩ |
      ⟨_, inside, isNew⟩
    · obtain ⟨key, inside, links⟩ := counted.keyed foundEarlier
      exact ⟨same.inode.trans key, Nat.lt_of_lt_of_le inside next,
        Nat.lt_of_lt_of_le links same.links⟩
    · exact ⟨isNew.inode, inside, isNew.links⟩
  · intro path ino mapped
    rcases ext.paths mapped with earlier | inside
    · exact Nat.lt_of_lt_of_le (counted.paths earlier) next
    · exact inside
  · intro call member ino isTarget
    exact Nat.lt_of_lt_of_le (counted.targets call member isTarget) next
  · exact fun ino member => Nat.lt_of_lt_of_le (counted.opened ino member) next
  · intro ino entry found
    rcases ext.source found with ⟨earlier, foundEarlier, same⟩ |
      ⟨fresh, _, isNew⟩
    · exact (counted.counts foundEarlier).same same
    · have right := counted.fresh fresh isNew.nlookup isNew.openHandles
        isNew.pending
      exact ⟨right.lookups, right.handles, right.unopened, right.deferring,
        right.pending⟩

/-- An eviction takes out what the kernel does not know and no reply is about
to hand out. -/
theorem Counted.evicts (counted : state.Counted) {table : InodeTable}
    {gone : Ino → Prop} (evicts : state.table.Evicts gone table)
    (unknown : ∀ {ino entry}, gone ino → state.table.get ino = some entry →
      entry.eviction.nlookup = 0)
    (unanswered : ∀ {ino}, gone ino → .replying ino ∉ state.calls) :
    { state with table }.Counted := by
  have next := evicts.next
  refine ⟨?_, ?_, ?_, ?_, ?_, ?_, ?_⟩
  · intro ino entry found
    obtain ⟨earlier, foundEarlier, same⟩ := evicts.source found
    obtain ⟨key, inside, links⟩ := counted.keyed foundEarlier
    exact ⟨same.inode.trans key, next ▸ inside,
      Nat.lt_of_lt_of_le links same.links⟩
  · intro path ino mapped
    dsimp only
    rw [next]
    exact counted.paths (evicts.paths mapped)
  · intro call member ino isTarget
    dsimp only
    rw [next]
    exact counted.targets call member isTarget
  · intro ino member
    dsimp only
    rw [next]
    exact counted.opened ino member
  · intro ino entry found
    obtain ⟨earlier, foundEarlier, same⟩ := evicts.source found
    exact (counted.counts foundEarlier).same same
  · intro ino isReplying
    apply evicts.stays
    · exact fun isGone => unanswered isGone isReplying
    · exact counted.replying isReplying
  · intro ino known
    have present := counted.known ino known
    apply evicts.stays _ present
    intro isGone
    obtain ⟨entry, found⟩ := Option.isSome_iff_exists.mp present
    have lookups := (counted.counts found).lookups
    rw [unknown isGone found] at lookups
    dsimp only at known
    omega

/-- The counts of one inode change. -/
theorem Counted.recounts {after : References} (counted : state.Counted)
    {change : EvictionState → EvictionState}
    (table : after.table = state.table.modifyEviction ino change)
    (targets : ∀ call ∈ after.calls, ∀ {other}, call.target = some other →
      other < state.table.nextInode)
    (opened : ∀ other ∈ after.handles, other < state.table.nextInode)
    (self : ∀ {entry}, state.table.get ino = some entry →
      after.CountsOf ino (change entry.eviction))
    (others : ∀ {other entry}, other ≠ ino →
      state.table.get other = some entry →
      after.CountsOf other entry.eviction)
    (replying : ∀ {other}, .replying other ∈ after.calls →
      (state.table.get other).isSome = true)
    (known : ∀ other, 0 < after.known other →
      (state.table.get other).isSome = true) : after.Counted := by
  have next : after.table.nextInode = state.table.nextInode := by
    rw [table]
    exact InodeTable.nextInode_modify _ _ _
  have present : ∀ {other}, (state.table.get other).isSome = true →
      (after.table.get other).isSome = true := by
    intro other isPresent
    rw [table, InodeTable.get_modifyEviction]
    split <;> rename_i same
    · rw [Option.isSome_map, ← same]
      exact isPresent
    · exact isPresent
  refine ⟨?_, ?_, ?_, ?_, ?_, fun isReplying => present (replying isReplying),
    fun other isKnown => present (known other isKnown)⟩
  · intro other entry found
    rw [next]
    rw [table, InodeTable.get_modifyEviction] at found
    split at found <;> rename_i same
    · subst same
      obtain ⟨earlier, foundEarlier, rfl⟩ := Option.map_eq_some_iff.mp found
      exact ⟨(counted.keyed foundEarlier).1, (counted.keyed foundEarlier).2⟩
    · exact counted.keyed found
  · intro path other mapped
    rw [table, InodeTable.modifyEviction,
      InodeTable.pathToInode_modify] at mapped
    rw [next]
    exact counted.paths mapped
  · intro call member other isTarget
    rw [next]
    exact targets call member isTarget
  · intro other member
    rw [next]
    exact opened other member
  · intro other entry found
    rw [table, InodeTable.get_modifyEviction] at found
    split at found <;> rename_i same
    · subst same
      obtain ⟨earlier, foundEarlier, rfl⟩ := Option.map_eq_some_iff.mp found
      exact self foundEarlier
    · exact others same found

/-! ## The steps of the calls -/

theorem Counted.replies {overlay : Bool}
    (counted : (state.goOn (.replying ino)).Counted) :
    (state.advance overlay (.replying ino)).Counted := by
  have present := counted.replying List.mem_cons_self
  have rest : state.Counted := by
    apply counted.ends <;> simp [RefCall.owed, RefCall.closing]
  have table : (state.advance overlay (.replying ino)).table =
      state.table.modifyEviction ino fun counts =>
        { counts with nlookup := counts.nlookup + 1 } := rfl
  refine rest.recounts table rest.targets rest.opened ?_ ?_ rest.replying ?_
  · intro entry found
    have right := rest.counts found
    have lookups := right.lookups
    refine ⟨?_, right.handles, right.unopened, right.deferring, right.pending⟩
    simp only [advance, Function.update_self]
    omega
  · intro other entry distinct found
    have right := rest.counts found
    refine ⟨?_, right.handles, right.unopened, right.deferring, right.pending⟩
    simp only [advance, Function.update_of_ne distinct]
    exact right.lookups
  · intro other known
    by_cases same : other = ino
    · rw [same]
      exact present
    · simp only [advance, Function.update_of_ne same] at known
      exact rest.known other known

/-- A handle comes while nobody acts on having seen none. -/
theorem Counted.installs (counted : state.Counted)
    (inside : ino < state.table.nextInode)
    (apart : .evicting ino ∉ state.calls ∧ .reaping ino ∉ state.calls) :
    (state.install ino).Counted := by
  have table : (state.install ino).table =
      state.table.modifyEviction ino fun counts =>
        { counts with openHandles := counts.openHandles + 1 } := rfl
  refine counted.recounts table counted.targets ?_ ?_ ?_ counted.replying
    counted.known
  · intro other member
    rcases List.mem_cons.mp member with rfl | earlier
    · exact inside
    · exact counted.opened other earlier
  · intro entry found
    have right := counted.counts found
    have handles := right.handles
    refine ⟨right.lookups, ?_, ?_, fun _ => Nat.succ_pos _,
      fun _ => Or.inl (Nat.succ_pos _)⟩
    · simp only [install, List.count_cons_self]
      omega
    · rintro (evicting | reaping)
      · exact absurd evicting apart.1
      · exact absurd reaping apart.2
  · intro other entry distinct found
    have right := counted.counts found
    refine ⟨right.lookups, ?_, right.unopened, right.deferring, right.pending⟩
    simp only [install, List.count_cons_of_ne (Ne.symm distinct)]
    exact right.handles

theorem Counted.forgets {overlay : Bool} {count : Nat}
    (counted : (state.goOn (.forgetting ino count)).Counted) :
    (state.advance overlay (.forgetting ino count)).Counted := by
  have less : { state with
      table := (state.table.dropNlookup ino count).2 }.Counted := by
    have table : (state.table.dropNlookup ino count).2 =
        state.table.modifyEviction ino fun counts =>
          { counts with nlookup := counts.nlookup - count } := rfl
    refine counted.recounts table ?_ counted.opened ?_ ?_ ?_ counted.known
    · exact fun call member =>
        counted.targets call (List.mem_cons_of_mem _ member)
    · intro entry found
      have right := counted.counts found
      have lookups := right.lookups
      have owed : RefCall.owed ino (.forgetting ino count) = count := if_pos rfl
      simp only [goOn, List.map_cons, List.sum_cons, owed] at lookups
      have rest : state.CountsOf ino
          { entry.eviction with
            nlookup := entry.eviction.nlookup - count } := by
        refine ⟨?_, ?_, ?_, ?_, ?_⟩
        · dsimp only
          omega
        · have handles := right.handles
          simpa [goOn, RefCall.closing] using handles
        · intro acts
          exact right.unopened (acts.imp (List.mem_cons_of_mem _)
            (List.mem_cons_of_mem _))
        · exact fun defers => right.deferring (List.mem_cons_of_mem _ defers)
        · intro isPending
          have waits := right.pending isPending
          simpa [goOn] using waits
      exact ⟨rest.lookups, rest.handles, rest.unopened, rest.deferring,
        rest.pending⟩
    · intro other entry distinct found
      have rest : state.CountsOf other entry.eviction := by
        apply (counted.counts found).ends <;>
          simp [RefCall.owed, RefCall.closing, Ne.symm distinct]
      exact ⟨rest.lookups, rest.handles, rest.unopened, rest.deferring,
        rest.pending⟩
    · exact fun isReplying =>
        counted.replying (List.mem_cons_of_mem _ isReplying)
  simp only [advance]
  split <;> rename_i zero
  · apply less.begins <;> simp [RefCall.owed, RefCall.closing, RefCall.target]
    -- The count of an inode that is not there cannot come to zero.
    simp only [InodeTable.dropNlookup, Option.any_eq_true] at zero
    obtain ⟨entry, found, _⟩ := zero
    have inside := (counted.keyed found).2.1
    simpa [goOn, InodeTable.dropNlookup, InodeTable.modifyEviction] using inside
  · exact less

theorem Counted.defers {overlay : Bool}
    (counted : (state.goOn (.deferring ino)).Counted) :
    (state.advance overlay (.deferring ino)).Counted := by
  have rest : state.Counted := by
    apply counted.ends <;> simp [RefCall.owed, RefCall.closing]
  have table : (state.advance overlay (.deferring ino)).table =
      state.table.modifyEviction ino fun counts =>
        { counts with evictPending := true } := rfl
  refine rest.recounts table rest.targets rest.opened ?_ ?_ rest.replying
    rest.known
  · intro entry found
    have right := rest.counts found
    have opened := (counted.counts found).deferring List.mem_cons_self
    exact ⟨right.lookups, right.handles, right.unopened, right.deferring,
      fun _ => Or.inl opened⟩
  · intro other entry _ found
    have right := rest.counts found
    exact ⟨right.lookups, right.handles, right.unopened, right.deferring,
      right.pending⟩

/-- A handle goes while no `forget` is about to leave its flag. -/
theorem Counted.closes {overlay : Bool}
    (counted : (state.goOn (.releasing ino)).Counted)
    (apart : .deferring ino ∉ state.calls) :
    (state.advance overlay (.releasing ino)).Counted := by
  have inside : ∀ {other}, RefCall.target (.dropped ino) = some other →
      other < state.table.nextInode := fun isTarget =>
    counted.targets (.releasing ino) List.mem_cons_self isTarget
  have table : (state.advance overlay (.releasing ino)).table =
      state.table.modifyEviction ino fun counts =>
        { counts with openHandles := counts.openHandles - 1 } := rfl
  refine counted.recounts table ?_ counted.opened ?_ ?_ ?_ counted.known
  · intro call member other isTarget
    rcases List.mem_cons.mp member with rfl | earlier
    · exact inside isTarget
    · exact counted.targets call (List.mem_cons_of_mem _ earlier) isTarget
  · intro entry found
    have right := counted.counts found
    have handles := right.handles
    have closing : RefCall.closing ino (.releasing ino) = 1 := if_pos rfl
    simp only [goOn, List.map_cons, List.sum_cons, closing] at handles
    refine ⟨?_, ?_, ?_, ?_, fun _ => Or.inr (Or.inl List.mem_cons_self)⟩
    · have lookups := right.lookups
      simpa [advance, goOn, RefCall.owed] using lookups
    · have dropped : RefCall.closing ino (.dropped ino) = 0 := rfl
      simp only [advance, goOn, List.map_cons, List.sum_cons, dropped]
      omega
    · intro acts
      have none : entry.eviction.openHandles = 0 := by
        apply right.unopened
        simpa [advance, goOn] using acts
      dsimp only
      omega
    · intro defers
      simp [advance, goOn, apart] at defers
  · intro other entry distinct found
    have right := counted.counts found
    refine ⟨?_, ?_, ?_, ?_, ?_⟩
    · have lookups := right.lookups
      simpa [advance, goOn, RefCall.owed] using lookups
    · have handles := right.handles
      simpa [advance, goOn, RefCall.closing, Ne.symm distinct] using handles
    · intro acts
      apply right.unopened
      simpa [advance, goOn] using acts
    · intro isDeferring
      apply right.deferring
      simpa [advance, goOn] using isDeferring
    · intro isPending
      have waits := right.pending isPending
      simpa [advance, goOn, distinct] using waits
  · intro other isReplying
    apply counted.replying
    simpa [advance, goOn] using isReplying

/-- The flag is taken before the eviction that it asks for. -/
theorem Counted.takes (counted : (state.goOn (.reaping ino)).Counted) :
    { state with
      table := (state.table.takeEvictPending ino).2 }.Counted := by
  have table : (state.table.takeEvictPending ino).2 =
      state.table.modifyEviction ino fun counts =>
        { counts with evictPending := false } := rfl
  refine counted.recounts table ?_ counted.opened ?_ ?_ ?_ counted.known
  · exact fun call member =>
      counted.targets call (List.mem_cons_of_mem _ member)
  · intro entry found
    have right := counted.counts found
    have taken : (state.goOn (.reaping ino)).CountsOf ino
        { entry.eviction with evictPending := false } := by
      refine ⟨right.lookups, right.handles, right.unopened, right.deferring, ?_⟩
      rintro ⟨⟩
    have rest : state.CountsOf ino
        { entry.eviction with evictPending := false } := by
      apply taken.ends rfl rfl
      rintro ⟨⟩
    exact ⟨rest.lookups, rest.handles, rest.unopened, rest.deferring,
      rest.pending⟩
  · intro other entry distinct found
    have rest : state.CountsOf other entry.eviction := by
      apply (counted.counts found).ends rfl rfl
      simp [Ne.symm distinct]
    exact ⟨rest.lookups, rest.handles, rest.unopened, rest.deferring,
      rest.pending⟩
  · exact fun isReplying =>
      counted.replying (List.mem_cons_of_mem _ isReplying)

/-- A release looks at the handles that are left. -/
theorem Counted.looks {overlay : Bool}
    (counted : (state.goOn (.dropped ino)).Counted) :
    (state.advance overlay (.dropped ino)).Counted := by
  have inside : ino < state.table.nextInode :=
    counted.targets _ List.mem_cons_self rfl
  simp only [advance]
  split <;> rename_i opened
  · apply counted.ends
    · simp [RefCall.owed]
    · simp [RefCall.closing]
    · intro other entry found _ isCall
      have same : ino = other := by simpa using isCall
      subst same
      simpa [InodeTable.hasOpenHandles, InodeEntry.hasOpenHandles, found]
        using opened
  · have closed : ∀ {entry}, state.table.get ino = some entry →
        entry.eviction.openHandles = 0 := by
      intro entry found
      simpa [InodeTable.hasOpenHandles, InodeEntry.hasOpenHandles, found]
        using opened
    refine ⟨counted.keyed, counted.paths, ?_, counted.opened, ?_, ?_, counted.known⟩
    · intro call member other isTarget
      rcases List.mem_cons.mp member with rfl | earlier
      · exact counted.targets (.dropped ino) List.mem_cons_self isTarget
      · exact counted.targets call (List.mem_cons_of_mem _ earlier) isTarget
    · intro other entry found
      have right := counted.counts found
      refine ⟨right.lookups, right.handles, ?_, ?_, ?_⟩
      · intro acts
        by_cases same : other = ino
        · subst same
          exact closed found
        · apply right.unopened
          simpa [goOn, same] using acts
      · intro isDeferring
        apply right.deferring
        simpa [goOn] using isDeferring
      · intro isPending
        by_cases same : other = ino
        · subst same
          exact Or.inr (Or.inr List.mem_cons_self)
        · have waits := right.pending isPending
          simpa [goOn, same] using waits
    · intro other isReplying
      apply counted.replying
      simpa [goOn] using isReplying

/-! ## Evictions -/

theorem Counted.evictsOne (counted : state.Counted)
    (apart : (state.table.get ino).any (·.isUnreferenced) = true →
      .replying ino ∉ state.calls) :
    { state with table := (state.table.evictIfSafe ino).2 }.Counted := by
  apply counted.evicts (state.table.evicts_evictIfSafe ino)
  · rintro other entry ⟨rfl, unreferenced⟩ found
    rw [found] at unreferenced
    exact (InodeEntry.isUnreferenced_iff.mp unreferenced).nlookup
  · rintro other ⟨rfl, unreferenced⟩
    exact apart unreferenced

theorem Counted.linked (counted : state.Counted) :
    ∀ entry, state.table.get ino = some entry → 0 < entry.nlink :=
  fun _ found => (counted.keyed found).2.2

/-- Taking the flag leaves what an eviction looks at. -/
theorem any_isUnreferenced_takeEvictPending (table : InodeTable) :
    ((table.takeEvictPending ino).2.get ino).any (·.isUnreferenced) =
      (table.get ino).any (·.isUnreferenced) := by
  rw [InodeTable.takeEvictPending, InodeTable.get_modifyEviction, if_pos rfl,
    Option.any_map]
  rfl

theorem Counted.reaps {overlay : Bool}
    (counted : (state.goOn (.reaping ino)).Counted)
    (apart : ((state.table.get ino).any fun entry =>
      entry.eviction.evictPending && entry.isUnreferenced) = true →
      .replying ino ∉ state.calls) :
    (state.advance overlay (.reaping ino)).Counted := by
  have taken := counted.takes
  have table : (state.table.reapOnLastRelease overlay ino).table = _ :=
    InodeTable.reapOnLastRelease_table counted.linked
  simp only [advance, table]
  split <;> rename_i flagged
  · apply taken.evictsOne
    intro unreferenced
    rw [any_isUnreferenced_takeEvictPending] at unreferenced
    apply apart
    cases found : state.table.get ino with
    | none => simp [found] at flagged
    | some entry =>
        rw [found] at flagged unreferenced
        simp only [Option.any_some] at flagged unreferenced ⊢
        rw [flagged, unreferenced]
        rfl
  · exact taken

theorem Counted.evicted (counted : state.Counted) {inos : List Ino}
    {entry : InodeEntry} (evicted : entry ∈ state.table.evictedEntries inos) :
    state.table.get entry.inode = some entry ∧ entry.Unreferenced ∧
      entry.eviction.openHandles = 0 := by
  obtain ⟨inTable, safe⟩ := List.mem_filter.mp evicted
  obtain ⟨other, _, found⟩ := List.mem_filterMap.mp inTable
  obtain ⟨unreferenced, closed⟩ := InodeEntry.isEvictable_iff.mp safe
  refine ⟨?_, InodeEntry.isUnreferenced_iff.mp unreferenced, closed⟩
  rw [(counted.keyed found).1]
  exact found

theorem Counted.evictsBatch (counted : state.Counted) {inos : List Ino}
    (apart : ∀ entry ∈ state.table.evictedEntries inos,
      .replying entry.inode ∉ state.calls) :
    { state with table := (state.table.evictBatchIfSafe inos).2 }.Counted := by
  apply counted.evicts (state.table.evicts_evictBatchIfSafe inos)
  · intro other entry gone found
    obtain ⟨evicted, isEvicted, rfl⟩ := List.mem_map.mp gone
    obtain ⟨foundEvicted, safe⟩ := counted.evicted isEvicted
    obtain rfl := Option.some.inj (found.symm.trans foundEvicted)
    exact safe.1.nlookup
  · intro other gone
    obtain ⟨evicted, isEvicted, rfl⟩ := List.mem_map.mp gone
    exact apart evicted isEvicted

theorem Counted.goesOn {overlay : Bool} {call : RefCall}
    (counted : (state.goOn call).Counted)
    (apart : (state.goOn call).Apart (.next call)) :
    (state.advance overlay call).Counted := by
  cases call with
  | replying ino => exact counted.replies
  | creating ino =>
      have inside : ino < state.table.nextInode :=
        counted.targets _ List.mem_cons_self rfl
      have rest : state.Counted := by
        apply counted.ends <;> simp [RefCall.owed, RefCall.closing]
      have installed := rest.installs inside (by simpa [goOn, Apart] using apart)
      simp only [advance]
      split <;> rename_i present
      · apply installed.begins <;>
          simp [RefCall.owed, RefCall.closing, RefCall.target]
        · simpa [install, InodeTable.bumpOpenHandles] using inside
        · simpa [install, InodeTable.bumpOpenHandles, InodeTable.get_modify]
            using present
      · exact installed
  | opening ino =>
      have rest : state.Counted := by
        apply counted.ends <;> simp [RefCall.owed, RefCall.closing]
      exact rest.installs (counted.targets _ List.mem_cons_self rfl)
        (by simpa [goOn, Apart] using apart)
  | forgetting ino count => exact counted.forgets
  | forgotten ino =>
      have inside : ino < state.table.nextInode :=
        counted.targets _ List.mem_cons_self rfl
      have rest : state.Counted := by
        apply counted.ends <;> simp [RefCall.owed, RefCall.closing]
      simp only [advance]
      split <;> rename_i opened
      · apply rest.begins <;>
          simp [RefCall.owed, RefCall.closing, RefCall.target]
        · exact inside
        · intro other entry found same
          subst same
          simpa [InodeTable.hasOpenHandles, InodeEntry.hasOpenHandles, found]
            using opened
      · apply rest.begins <;>
          simp [RefCall.owed, RefCall.closing, RefCall.target]
        · exact inside
        · intro other entry found same
          subst same
          simpa [InodeTable.hasOpenHandles, InodeEntry.hasOpenHandles, found]
            using opened
  | deferring ino => exact counted.defers
  | evicting ino =>
      have rest : state.Counted := by
        apply counted.ends <;> simp [RefCall.owed, RefCall.closing]
      apply rest.evictsOne
      simpa [goOn, Apart] using apart
  | releasing ino =>
      apply counted.closes
      simpa [goOn, Apart] using apart
  | dropped ino => exact counted.looks
  | reaping ino =>
      apply counted.reaps
      simpa [goOn, Apart] using apart
  | sweeping candidates toEvict =>
      have rest : state.Counted := by
        apply counted.ends <;> simp [RefCall.owed, RefCall.closing]
      cases candidates with
      | cons first later =>
          apply rest.begins <;>
            simp [RefCall.owed, RefCall.closing, RefCall.target]
      | nil =>
          have evicted : { state with table := (state.table.evictBatchIfSafe
              (toEvict.take evictChunk)).2 }.Counted := by
            apply rest.evictsBatch
            simpa [goOn, Apart] using apart
          simp only [advance]
          split
          · exact evicted
          · apply evicted.begins <;>
              simp [RefCall.owed, RefCall.closing, RefCall.target]

end

end References

end HfMount.Vfs
