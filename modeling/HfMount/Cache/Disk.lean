import HfMount.Cache.SingleFlight

/-!
# The items and the files on the disk

A file is renamed before it is recorded, and removed after it is forgotten,
outside the lock.  As long as no call is dropped between the first two and no
removal meets a new file of its hash, the items and the files agree in every
state where no call is in progress.
-/

namespace HfMount.Cache

open Transition SingleFlight

/-! ## The memory of a run -/

/-- The sum is exact and within the capacity. -/
structure Memory.Bounded (memory : Memory) : Prop extends
    memory.Counted where
  bounded : memory.state.totalBytes ≤ memory.capacity

theorem totalBytes_removeItem_le (state : State) (hash : Hash) :
    (state.removeItem hash).totalBytes ≤ state.totalBytes := by
  unfold State.removeItem
  split
  · exact Nat.sub_le _ _
  · exact Nat.le_refl _

theorem Memory.capacity_step {memory next : Memory} {access : Access}
    (stepped : memory.step access = some next) :
    next.capacity = memory.capacity := by
  cases access with
  | publish hash size order =>
      simp only [Memory.step] at stepped
      split at stepped
      · obtain rfl := Option.some.inj stepped
        rfl
      · cases stepped
  | hit hash => exact FileCache.capacity_touch stepped
  | forget hash =>
      obtain rfl := Option.some.inj stepped
      rfl

theorem Memory.Bounded.step {memory next : Memory} (bounded : memory.Bounded)
    {access : Access} (stepped : memory.step access = some next) :
    next.Bounded := by
  refine ⟨bounded.toCounted.step stepped, ?_⟩
  rw [Memory.capacity_step stepped]
  cases access with
  | publish hash size order =>
      simp only [Memory.step] at stepped
      split at stepped <;> rename_i enabled
      · obtain rfl := Option.some.inj stepped
        exact (bounded.toCounted.publish enabled.1 enabled.2).1.bounded
      · cases stepped
  | hit hash =>
      simp only [Memory.step, Memory.touch] at stepped
      split at stepped
      · cases stepped
      · obtain rfl := Option.some.inj stepped
        exact bounded.bounded
  | forget hash =>
      obtain rfl := Option.some.inj stepped
      exact Nat.le_trans (totalBytes_removeItem_le _ _) bounded.bounded

theorem lookup_removeItems_subset {gone : List Hash} {state : State}
    {hash : Hash} {item : CacheItem}
    (looked : (gone.foldl State.removeItem state).items.lookup hash =
      some item) :
    state.items.lookup hash = some item := by
  induction gone generalizing state with
  | nil => exact looked
  | cons victim gone ih => exact Memory.lookup_removeItem_subset (ih looked)

theorem lookup_removeItem_of_ne {state : State} {hash other : Hash}
    (distinct : other ≠ hash) :
    (state.removeItem hash).items.lookup other = state.items.lookup other := by
  unfold State.removeItem
  split
  · exact AList.lookup_erase_ne distinct
  · rfl

theorem lookup_removeItems_of_not_mem {gone : List Hash} {state : State}
    {hash : Hash} (kept : hash ∉ gone) :
    (gone.foldl State.removeItem state).items.lookup hash =
      state.items.lookup hash := by
  induction gone generalizing state with
  | nil => rfl
  | cons victim gone ih =>
      rw [List.mem_cons, not_or] at kept
      exact (ih kept.2).trans (lookup_removeItem_of_ne kept.1)

theorem Memory.lookup_publish_subset {memory : Memory} {hash other : Hash}
    {size : Nat} {order : List Entry} {item : CacheItem}
    (looked : (memory.publish hash size order).1.state.items.lookup other =
      some item) :
    (memory.inserted hash size).items.lookup other = some item := by
  simp only [Memory.publish, State.evictLocked] at looked
  split at looked
  · exact looked
  · exact lookup_removeItems_subset looked

theorem Memory.lookup_publish_of_not_mem {memory : Memory}
    {hash other : Hash} {size : Nat} {order : List Entry}
    (kept : other ∉ (memory.publish hash size order).2) :
    (memory.publish hash size order).1.state.items.lookup other =
      (memory.inserted hash size).items.lookup other := by
  simp only [Memory.publish, State.evictLocked] at kept ⊢
  split at kept <;> rename_i within
  · rw [if_pos within]
  · rw [if_neg within]
    exact lookup_removeItems_of_not_mem kept

/-- The hash whose file the call removes with this action. -/
def Call.removesNext (call : Call) : Action → Option Hash
  | .evict | .unlink => call.removes.head?
  | _ => none

namespace FileCache

/-- A step of the file cache leaves the memory as it is, or is one access. -/
theorem memory_step {cache next : FileCache} (checked : cache.Checked)
    {event : Event} (stepped : cache.step event = some next) :
    next.memory = cache.memory ∨
      ∃ access, cache.memory.step access = some next.memory := by
  rcases step_cases stepped with ⟨call, new, free, first, rfl⟩ |
    ⟨call, found, action, rfl, here, moved⟩
  · exact Or.inl rfl
  obtain ⟨phase, _, _, effect⟩ := advanced moved
  cases effect with
  | quiet _ _ _ _ memory _ => exact Or.inl memory
  | touch _ hit memory _ => exact Or.inr ⟨.hit found.hash, memory ▸ hit⟩
  | rename _ _ _ memory _ => exact Or.inl memory
  | @publish channel size order renamed walked memory _ =>
      obtain ⟨_, fits, _⟩ := checked call found size here
        (publishes_eq_some.mpr ⟨channel, renamed⟩)
      refine Or.inr ⟨.publish found.hash size order, ?_⟩
      rw [memory]
      exact if_pos ⟨fits, walked⟩
  | evict _ memory _ => exact Or.inl memory
  | abandon _ memory _ => exact Or.inl memory
  | erase _ memory _ =>
      exact Or.inr ⟨.forget found.hash, congrArg some memory.symm⟩
  | unlink _ memory _ => exact Or.inl memory

/-! ## The files of the items -/

/-- The size that the items have for a hash. -/
def itemSize (cache : FileCache) (hash : Hash) : Option Nat :=
  (cache.memory.state.items.lookup hash).map (·.size)

/-- Some call has renamed a file of this size and has yet to publish it. -/
def Publishing (cache : FileCache) (hash : Hash) (size : Nat) : Prop :=
  ∃ call found, cache.calls call = some found ∧ found.hash = hash ∧
    found.publishes = some size

/-- Some call has yet to remove the file of the hash. -/
def Removing (cache : FileCache) (hash : Hash) : Prop :=
  ∃ call found, cache.calls call = some found ∧ hash ∈ found.removes

/-- While calls are in progress, a file may be on the disk before it is an
item, and after. -/
structure Synced (cache : FileCache) : Prop where
  listed : ∀ hash size, cache.itemSize hash = some size →
    (∀ renamed, ¬ cache.Publishing hash renamed) →
    cache.disk (itemPath hash) = some size
  renamed : ∀ hash size, cache.Publishing hash size →
    cache.disk (itemPath hash) = some size
  known : ∀ path size, cache.disk path = some size →
    itemPath path.2 = path ∧
      (cache.itemSize path.2 ≠ none ∨
        (∃ renamed, cache.Publishing path.2 renamed) ∨
        cache.Removing path.2)

/-! ### The calls after a step -/

section

variable {cache next : FileCache} {call : Nat} {found new : Call}
  {hash : Hash} {size : Nat}

theorem publishing_cases
    (calls : next.calls = Function.update cache.calls call (some new))
    (publishing : next.Publishing hash size) :
    (new.hash = hash ∧ new.publishes = some size) ∨
      ∃ other otherFound, other ≠ call ∧
        cache.calls other = some otherFound ∧ otherFound.hash = hash ∧
        otherFound.publishes = some size := by
  obtain ⟨other, otherFound, there, isHash, publishes⟩ := publishing
  rw [calls] at there
  by_cases same : other = call
  · subst same
    rw [Function.update_self] at there
    obtain rfl := Option.some.inj there
    exact Or.inl ⟨isHash, publishes⟩
  · rw [Function.update_of_ne same] at there
    exact Or.inr ⟨other, otherFound, same, there, isHash, publishes⟩

theorem Publishing.of_update
    (calls : next.calls = Function.update cache.calls call (some new))
    (idle : new.publishes = none) (publishing : next.Publishing hash size) :
    cache.Publishing hash size := by
  rcases publishing_cases calls publishing with ⟨_, publishes⟩ |
    ⟨other, otherFound, _, there, isHash, publishes⟩
  · rw [idle] at publishes
    cases publishes
  · exact ⟨other, otherFound, there, isHash, publishes⟩

/-- A call that publishes goes on to do so, unless it is the one that takes a
step. -/
theorem Publishing.update (here : ∀ old, cache.calls call = some old →
      old = found)
    (calls : next.calls = Function.update cache.calls call (some new))
    (publishing : cache.Publishing hash size) :
    next.Publishing hash size ∨
      found.hash = hash ∧ found.publishes = some size := by
  obtain ⟨other, otherFound, there, isHash, publishes⟩ := publishing
  by_cases same : other = call
  · subst same
    obtain rfl := here otherFound there
    exact Or.inr ⟨isHash, publishes⟩
  · refine Or.inl ⟨other, otherFound, ?_, isHash, publishes⟩
    rw [calls, Function.update_of_ne same]
    exact there

theorem Publishing.update_of_idle (here : ∀ old, cache.calls call = some old →
      old = found)
    (calls : next.calls = Function.update cache.calls call (some new))
    (publishes : found.publishes = none)
    (publishing : cache.Publishing hash size) :
    next.Publishing hash size := by
  rcases publishing.update here calls with stays | ⟨_, was⟩
  · exact stays
  · rw [publishes] at was
    cases was

theorem Removing.update (here : ∀ old, cache.calls call = some old →
      old = found)
    (calls : next.calls = Function.update cache.calls call (some new))
    (removing : cache.Removing hash) :
    next.Removing hash ∨ hash ∈ found.removes := by
  obtain ⟨other, otherFound, there, removes⟩ := removing
  by_cases same : other = call
  · subst same
    obtain rfl := here otherFound there
    exact Or.inr removes
  · refine Or.inl ⟨other, otherFound, ?_, removes⟩
    rw [calls, Function.update_of_ne same]
    exact there

end

/-! ### One step -/

theorem itemSize_touch {cache next : FileCache} {hash : Hash} {memory : Memory}
    (hit : cache.memory.touch hash = some memory)
    (same : next.memory = memory) : next.itemSize = cache.itemSize := by
  unfold Memory.touch at hit
  split at hit <;> rename_i looked
  · cases hit
  · obtain rfl := Option.some.inj hit
    funext other
    simp only [itemSize, same]
    by_cases here : other = hash
    · subst here
      simp [looked]
    · rw [AList.lookup_insert_ne here]

/-- A step that neither begins nor ends a publication or a removal. -/
theorem Synced.of_quiet {cache next : FileCache} (synced : cache.Synced)
    {call : Nat} {found new : Call}
    (here : ∀ old, cache.calls call = some old → old = found)
    (calls : next.calls = Function.update cache.calls call (some new))
    (publishes : found.publishes = none) (removes : found.removes = [])
    (idle : new.publishes = none) (items : next.itemSize = cache.itemSize)
    (disk : next.disk = cache.disk) : next.Synced := by
  have stays : ∀ {hash size}, cache.Publishing hash size →
      next.Publishing hash size :=
    fun publishing => publishing.update_of_idle here calls publishes
  constructor
  · intro hash size listed unpublished
    rw [items] at listed
    rw [disk]
    exact synced.listed hash size listed fun renamed publishing =>
      unpublished renamed (stays publishing)
  · intro hash size publishing
    rw [disk]
    exact synced.renamed hash size (publishing.of_update calls idle)
  · intro path size present
    rw [disk] at present
    obtain ⟨placed, cause⟩ := synced.known path size present
    refine ⟨placed, ?_⟩
    rcases cause with listed | ⟨renamed, publishing⟩ | removing
    · exact Or.inl (items ▸ listed)
    · exact Or.inr (Or.inl ⟨renamed, stays publishing⟩)
    · rcases removing.update here calls with removing | removed
      · exact Or.inr (Or.inr removing)
      · rw [removes] at removed
        cases removed

/-- The removal of a file that is no item and that no call has renamed. -/
theorem Synced.removeFile {cache next : FileCache} (synced : cache.Synced)
    {call : Nat} {found new : Call} {victim : Hash}
    (here : cache.calls call = some found)
    (calls : next.calls = Function.update cache.calls call (some new))
    (publishes : found.publishes = none) (idle : new.publishes = none)
    (removes : ∀ hash ∈ found.removes, hash = victim ∨ hash ∈ new.removes)
    (memory : next.memory = cache.memory)
    (disk : next.disk =
      Function.update cache.disk (itemPath victim) none)
    (unlisted : cache.itemSize victim = none)
    (unpublished : ∀ renamed, ¬ cache.Publishing victim renamed) :
    next.Synced := by
  have only : ∀ old, cache.calls call = some old → old = found :=
    fun old there => Option.some.inj (there.symm.trans here)
  have stays : ∀ {hash size}, cache.Publishing hash size →
      next.Publishing hash size :=
    fun publishing => publishing.update_of_idle only calls publishes
  have items : next.itemSize = cache.itemSize := by
    unfold itemSize
    rw [memory]
  have elsewhere : ∀ {hash}, hash ≠ victim →
      next.disk (itemPath hash) = cache.disk (itemPath hash) := by
    intro hash distinct
    rw [disk]
    exact Function.update_of_ne
      (fun same => distinct (itemPath_injective same)) _ _
  constructor
  · intro hash size listed unpublishedNow
    rw [items] at listed
    have distinct : hash ≠ victim := by
      rintro rfl
      rw [unlisted] at listed
      cases listed
    rw [elsewhere distinct]
    exact synced.listed hash size listed fun renamed publishing =>
      unpublishedNow renamed (stays publishing)
  · intro hash size publishing
    have before := publishing.of_update calls idle
    have distinct : hash ≠ victim := by
      rintro rfl
      exact unpublished size before
    rw [elsewhere distinct]
    exact synced.renamed hash size before
  · intro path size present
    rw [disk] at present
    obtain ⟨placed, cause⟩ := synced.known path size (disk_of_removed present)
    refine ⟨placed, ?_⟩
    rcases cause with listed | ⟨renamed, publishing⟩ | removing
    · exact Or.inl (items ▸ listed)
    · exact Or.inr (Or.inl ⟨renamed, stays publishing⟩)
    · rcases removing.update only calls with removing | removed
      · exact Or.inr (Or.inr removing)
      · rcases removes _ removed with same | later
        · rw [← placed, same, Function.update_self] at present
          cases present
        · refine Or.inr (Or.inr ⟨call, new, ?_, later⟩)
          rw [calls, Function.update_self]

/-- The item is erased before its file. -/
theorem Synced.erase {cache next : FileCache} (synced : cache.Synced)
    {call : Nat} {found new : Call} (here : cache.calls call = some found)
    (calls : next.calls = Function.update cache.calls call (some new))
    (publishes : found.publishes = none) (idle : new.publishes = none)
    (removes : found.removes = []) (removing : new.removes = [found.hash])
    (memory : next.memory = cache.memory.forgetItem found.hash)
    (disk : next.disk = cache.disk) : next.Synced := by
  have only : ∀ old, cache.calls call = some old → old = found :=
    fun old there => Option.some.inj (there.symm.trans here)
  have stays : ∀ {hash size}, cache.Publishing hash size →
      next.Publishing hash size :=
    fun publishing => publishing.update_of_idle only calls publishes
  constructor
  · intro hash size listed unpublished
    rw [disk]
    refine synced.listed hash size ?_ fun renamed publishing =>
      unpublished renamed (stays publishing)
    simp only [itemSize, memory, Option.map_eq_some_iff] at listed ⊢
    obtain ⟨item, looked, isSize⟩ := listed
    exact ⟨item, Memory.lookup_removeItem_subset looked, isSize⟩
  · intro hash size publishing
    rw [disk]
    exact synced.renamed hash size (publishing.of_update calls idle)
  · intro path size present
    rw [disk] at present
    obtain ⟨placed, cause⟩ := synced.known path size present
    refine ⟨placed, ?_⟩
    by_cases same : path.2 = found.hash
    · refine Or.inr (Or.inr ⟨call, new, ?_, ?_⟩)
      · rw [calls, Function.update_self]
      · rw [removing, same]
        exact List.mem_singleton_self _
    rcases cause with listed | ⟨renamed, publishing⟩ | removingBefore
    · apply Or.inl
      simp only [itemSize, memory, Memory.forgetItem] at listed ⊢
      rw [lookup_removeItem_of_ne same]
      exact listed
    · exact Or.inr (Or.inl ⟨renamed, stays publishing⟩)
    · rcases removingBefore.update only calls with still | removed
      · exact Or.inr (Or.inr still)
      · rw [removes] at removed
        cases removed

/-- The renamed file is on the disk, and is no other call's. -/
theorem Synced.rename {cache next : FileCache} (synced : cache.Synced)
    {call size : Nat} {found new : Call} (here : cache.calls call = some found)
    (alone : ∀ other otherFound, cache.calls other = some otherFound →
      otherFound.hash = found.hash → otherFound.publishes ≠ none →
      other = call)
    (calls : next.calls = Function.update cache.calls call (some new))
    (publishes : found.publishes = none) (removes : found.removes = [])
    (same : new.hash = found.hash) (publishing : new.publishes = some size)
    (memory : next.memory = cache.memory)
    (disk : next.disk =
      Function.update cache.disk (itemPath found.hash) (some size)) :
    next.Synced := by
  have only : ∀ old, cache.calls call = some old → old = found :=
    fun old there => Option.some.inj (there.symm.trans here)
  have items : next.itemSize = cache.itemSize := by
    unfold itemSize
    rw [memory]
  have published : next.Publishing found.hash size := by
    refine ⟨call, new, ?_, same, publishing⟩
    rw [calls, Function.update_self]
  have elsewhere : ∀ {hash}, hash ≠ found.hash →
      next.disk (itemPath hash) = cache.disk (itemPath hash) := by
    intro hash distinct
    rw [disk]
    exact Function.update_of_ne
      (fun same => distinct (itemPath_injective same)) _ _
  constructor
  · intro hash listedSize listed unpublished
    rw [items] at listed
    have distinct : hash ≠ found.hash := by
      rintro rfl
      exact unpublished size published
    rw [elsewhere distinct]
    refine synced.listed hash listedSize listed fun renamed before => ?_
    exact unpublished renamed (before.update_of_idle only calls publishes)
  · intro hash otherSize publishingNow
    rcases publishing_cases calls publishingNow with ⟨isHash, isSize⟩ |
      ⟨other, otherFound, different, there, isHash, publishesOther⟩
    · rw [publishing] at isSize
      obtain rfl := Option.some.inj isSize
      rw [← isHash, same, disk, Function.update_self]
    · have distinct : hash ≠ found.hash := by
        intro equal
        refine different (alone other otherFound there (isHash.trans equal) ?_)
        rw [publishesOther]
        exact Option.some_ne_none _
      rw [elsewhere distinct]
      exact synced.renamed hash otherSize
        ⟨other, otherFound, there, isHash, publishesOther⟩
  · intro path otherSize present
    rw [disk] at present
    by_cases placed : path = itemPath found.hash
    · subst placed
      exact ⟨rfl, Or.inr (Or.inl ⟨size, published⟩)⟩
    · rw [Function.update_of_ne placed] at present
      obtain ⟨placed, cause⟩ := synced.known path otherSize present
      refine ⟨placed, ?_⟩
      rcases cause with listed | ⟨renamed, before⟩ | removing
      · exact Or.inl (items ▸ listed)
      · exact Or.inr (Or.inl
          ⟨renamed, before.update_of_idle only calls publishes⟩)
      · rcases removing.update only calls with still | removed
        · exact Or.inr (Or.inr still)
        · rw [removes] at removed
          cases removed

/-- The renamed file becomes an item; what it pushes out is still to be
removed. -/
theorem Synced.publish {cache next : FileCache} (synced : cache.Synced)
    {call size : Nat} {found new : Call} {order : List Entry}
    (here : cache.calls call = some found)
    (calls : next.calls = Function.update cache.calls call (some new))
    (publishes : found.publishes = some size) (removes : found.removes = [])
    (idle : new.publishes = none)
    (removing : new.removes =
      (cache.memory.publish found.hash size order).2)
    (memory : next.memory =
      (cache.memory.publish found.hash size order).1)
    (disk : next.disk = cache.disk) : next.Synced := by
  have only : ∀ old, cache.calls call = some old → old = found :=
    fun old there => Option.some.inj (there.symm.trans here)
  have current : cache.Publishing found.hash size :=
    ⟨call, found, here, rfl, publishes⟩
  constructor
  · intro hash listedSize listed unpublished
    rw [disk]
    simp only [itemSize, memory, Option.map_eq_some_iff] at listed
    obtain ⟨item, looked, isSize⟩ := listed
    have before := Memory.lookup_publish_subset looked
    rw [Memory.lookup_inserted] at before
    by_cases same : hash = found.hash
    · rw [if_pos same] at before
      obtain rfl := Option.some.inj before
      rw [same, ← isSize]
      exact synced.renamed found.hash size current
    · rw [if_neg same] at before
      refine synced.listed hash listedSize ?_ fun renamed publishing => ?_
      · simp only [itemSize, before, Option.map_some, isSize]
      · rcases publishing.update only calls with stays | ⟨isHash, _⟩
        · exact unpublished renamed stays
        · exact same isHash.symm
  · intro hash otherSize publishing
    rw [disk]
    exact synced.renamed hash otherSize (publishing.of_update calls idle)
  · intro path otherSize present
    rw [disk] at present
    obtain ⟨placed, cause⟩ := synced.known path otherSize present
    refine ⟨placed, ?_⟩
    have kept : (path.2 = found.hash ∨ cache.itemSize path.2 ≠ none) →
        next.itemSize path.2 ≠ none ∨ next.Removing path.2 := by
      intro inserted
      by_cases gone : path.2 ∈ (cache.memory.publish found.hash size order).2
      · refine Or.inr ⟨call, new, ?_, ?_⟩
        · rw [calls, Function.update_self]
        · rw [removing]
          exact gone
      · apply Or.inl
        simp only [itemSize, memory, Memory.lookup_publish_of_not_mem gone,
          Memory.lookup_inserted]
        rcases inserted with same | listed
        · simp [same]
        · split
          · simp
          · exact listed
    rcases cause with listed | ⟨renamed, publishing⟩ | removingBefore
    · exact (kept (Or.inr listed)).imp_right Or.inr
    · rcases publishing.update only calls with stays | ⟨isHash, _⟩
      · exact Or.inr (Or.inl ⟨renamed, stays⟩)
      · exact (kept (Or.inl isHash.symm)).imp_right Or.inr
    · rcases removingBefore.update only calls with still | removed
      · exact Or.inr (Or.inr still)
      · rw [removes] at removed
        cases removed

/-! ### A run -/

/-- The condition on a step: no call is dropped after it has renamed its file,
and no file is removed that is an item again or is about to be one. -/
def KeepsFiles (cache : FileCache) : Event → Prop
  | .advance call action =>
      ∀ found, cache.calls call = some found →
        (action = .drop → found.publishes = none) ∧
        ∀ hash, found.removesNext action = some hash →
          cache.itemSize hash = none ∧
            ∀ renamed, ¬ cache.Publishing hash renamed
  | _ => True

theorem Synced.step {cache next : FileCache} (synced : cache.Synced)
    (attended : Attended cache.flights) {event : Event}
    (keeps : cache.KeepsFiles event)
    (stepped : cache.step event = some next) : next.Synced := by
  rcases step_cases stepped with ⟨call, new, free, first, rfl⟩ |
    ⟨call, found, action, rfl, here, moved⟩
  · refine synced.of_quiet (fun old there => ?_) rfl
      (publishes_of_isFirst first) (removes_of_isFirst first)
      (publishes_of_isFirst first) rfl rfl
    rw [free] at there
    cases there
  obtain ⟨phase, calls, _, effect⟩ := advanced moved
  obtain ⟨undropped, unwanted⟩ := keeps found here
  have only : ∀ old, cache.calls call = some old → old = found :=
    fun old there => Option.some.inj (there.symm.trans here)
  cases effect with
  | quiet publishes removes idle _ memory disk =>
      exact synced.of_quiet only calls publishes removes idle
        (by unfold itemSize; rw [memory]) disk
  | touch opening hit memory disk =>
      exact synced.of_quiet only calls (by simp [Call.publishes, opening])
        (by simp [Call.removes, opening]) rfl (itemSize_touch hit memory) disk
  | @rename channel size downloaded _ _ memory disk =>
      refine synced.rename here ?_ calls
        (by simp [Call.publishes, downloaded])
        (by simp [Call.removes, downloaded]) rfl rfl memory disk
      intro other otherFound there same publishes
      obtain ⟨otherSize, isSize⟩ := Option.ne_none_iff_exists'.mp publishes
      obtain ⟨otherChannel, otherLeads⟩ := leads_of_publishes there isSize
      have leads : cache.flights.role call =
          some (.leads found.hash channel) := by
        simp [flights, here, Call.role, downloaded]
      rw [same] at otherLeads
      exact attended.leader otherLeads leads
  | @publish channel size order renamed _ memory disk =>
      exact synced.publish here calls
        (publishes_eq_some.mpr ⟨channel, renamed⟩)
        (by simp [Call.removes, renamed]) rfl rfl memory disk
  | @evict channel victim victims evicting memory disk =>
      obtain ⟨unlisted, unpublished⟩ := unwanted victim
        (by simp [Call.removesNext, Call.removes, evicting])
      refine synced.removeFile here calls (by simp [Call.publishes, evicting])
        rfl ?_ memory disk unlisted unpublished
      simp [Call.removes, evicting]
  | abandon renamed _ _ =>
      have publishes := undropped rfl
      simp [Call.publishes, renamed] at publishes
  | erase forgetting memory disk =>
      exact synced.erase here calls (by simp [Call.publishes, forgetting]) rfl
        (by simp [Call.removes, forgetting]) rfl memory disk
  | unlink unlinking memory disk =>
      obtain ⟨unlisted, unpublished⟩ := unwanted found.hash
        (by simp [Call.removesNext, Call.removes, unlinking])
      refine synced.removeFile here calls
        (by simp [Call.publishes, unlinking]) rfl ?_ memory disk unlisted
        unpublished
      simp [Call.removes, unlinking]

/-! ### The files at the start -/

/-- Every file is in the shard of its name, no file hides another, and all
files together are within the capacity. -/
structure Tidy (root : Option (List Shard)) (capacity : Nat) : Prop where
  placed : ∀ file ∈ placedFiles root, itemPath file.1.2 = file.1
  noneHidden : NoneHidden (foundFiles root)
  bounded : (scanExisting root).1.totalBytes ≤ capacity

/-- The last file of a place is the item of its name. -/
theorem find_placed_iff {files : List (ItemPath × Metadata)}
    (placed : ∀ file ∈ files, itemPath file.1.2 = file.1) (path : ItemPath)
    (size : Nat) :
    (files.reverse.find? (·.1 = path)).map (·.2.len) = some size ↔
      itemPath path.2 = path ∧
        ((scanFiles (files.map unplaced)).1.items.lookup path.2).map (·.size) =
          some size := by
  induction files using List.reverseRecOn with
  | nil => simp [scanFiles, State.empty]
  | append_singleton files file ih =>
      obtain ⟨⟨shard, name⟩, metadata⟩ := file
      have here : itemPath name = (shard, name) :=
        placed ((shard, name), metadata) (by simp)
      have before := ih fun file member =>
        placed file (List.mem_append_left _ member)
      rw [List.reverse_append, List.map_append, List.map_singleton,
        scanFiles_concat, lookup_scanFile]
      by_cases same : (shard, name) = path
      · subst same
        simp [here, unplaced]
      · simp only [List.reverse_singleton, List.singleton_append,
          List.find?_cons, same, decide_false, before]
        refine and_congr_right fun isPlace => ?_
        have distinct : path.2 ≠ name := by
          intro equal
          rw [equal, here] at isPlace
          exact same isPlace
        simp [unplaced, distinct]

theorem disk_new {root : Option (List Shard)} {capacity : Nat}
    (tidy : Tidy root capacity) (path : ItemPath) (size : Nat) :
    (new root capacity).disk path = some size ↔
      itemPath path.2 = path ∧
        (new root capacity).itemSize path.2 = some size := by
  simp only [new, itemSize, Memory.new, scanExisting_eq]
  exact find_placed_iff tidy.placed path size

theorem synced_new {root : Option (List Shard)} {capacity : Nat}
    (tidy : Tidy root capacity) : (new root capacity).Synced := by
  constructor
  · intro hash size listed _
    exact (disk_new tidy (itemPath hash) size).mpr ⟨rfl, listed⟩
  · intro hash size publishing
    obtain ⟨call, found, here, _⟩ := publishing
    cases here
  · intro path size present
    obtain ⟨placed, listed⟩ := (disk_new tidy path size).mp present
    refine ⟨placed, Or.inl ?_⟩
    rw [listed]
    exact Option.some_ne_none _

theorem bounded_new {root : Option (List Shard)} {capacity : Nat}
    (tidy : Tidy root capacity) : (new root capacity).memory.Bounded :=
  ⟨Memory.counted_new capacity tidy.noneHidden, tidy.bounded⟩

/-! ## Agreement -/

/-- No call is in progress. -/
def Quiet (cache : FileCache) : Prop :=
  ∀ call found, cache.calls call = some found →
    ∃ outcome, found.phase = .finished outcome

/-- The files are those of the items, every item can be opened, and the files
fit into the capacity. -/
structure InStep (cache : FileCache) (capacity : Nat) : Prop where
  files : ∀ path size, cache.disk path = some size ↔
    itemPath path.2 = path ∧ cache.itemSize path.2 = some size
  opens : ∀ hash, cache.contains hash = true →
    (cache.disk (itemPath hash)).isSome
  bounded : ∀ paths : List ItemPath, paths.Nodup →
    (paths.map fun path => (cache.disk path).getD 0).sum ≤ capacity

/-- The bytes that the items account for at a place. -/
def placedSize (items : Items) (path : ItemPath) : Nat :=
  if itemPath path.2 = path then
    ((items.lookup path.2).map (·.size)).getD 0
  else 0

theorem placedSize_erase {items : Items} {path other : ItemPath}
    (placed : itemPath path.2 = path) (distinct : other ≠ path) :
    placedSize (items.erase path.2) other = placedSize items other := by
  unfold placedSize
  split <;> rename_i also
  · have names : other.2 ≠ path.2 := by
      intro same
      apply distinct
      rw [← also, same, placed]
    rw [AList.lookup_erase_ne names]
  · rfl

theorem sum_placedSize_le (items : Items) {paths : List ItemPath}
    (nodup : paths.Nodup) :
    (paths.map (placedSize items)).sum ≤ weight items.entries := by
  induction paths generalizing items with
  | nil => exact Nat.zero_le _
  | cons path paths ih =>
      obtain ⟨fresh, nodup⟩ := List.nodup_cons.mp nodup
      rw [List.map_cons, List.sum_cons]
      by_cases placed : itemPath path.2 = path
      · cases looked : items.lookup path.2 with
        | none =>
            have nothing : placedSize items path = 0 := by
              simp [placedSize, looked]
            rw [nothing, Nat.zero_add]
            exact ih items nodup
        | some item =>
            have here : placedSize items path = item.size := by
              simp [placedSize, placed, looked]
            have others : paths.map (placedSize items) =
                paths.map (placedSize (items.erase path.2)) := by
              apply List.map_congr_left
              intro other member
              refine (placedSize_erase placed ?_).symm
              rintro rfl
              exact fresh member
            rw [here, others, weight_erase_of_lookup looked]
            exact Nat.add_le_add_left (ih _ nodup) _
      · have nothing : placedSize items path = 0 := if_neg placed
        rw [nothing, Nat.zero_add]
        exact ih items nodup

/-- With no call in progress, nothing is left to be published or removed. -/
theorem Synced.inStep {cache : FileCache} (synced : cache.Synced)
    (memory : cache.memory.Bounded) (quiet : cache.Quiet) :
    cache.InStep cache.memory.capacity := by
  have unpublished : ∀ hash size, ¬ cache.Publishing hash size := by
    rintro hash size ⟨call, found, here, _, publishes⟩
    obtain ⟨outcome, finished⟩ := quiet call found here
    simp [Call.publishes, finished] at publishes
  have settled : ∀ hash, ¬ cache.Removing hash := by
    rintro hash ⟨call, found, here, removes⟩
    obtain ⟨outcome, finished⟩ := quiet call found here
    simp [Call.removes, finished] at removes
  have listed : ∀ hash size, cache.itemSize hash = some size →
      cache.disk (itemPath hash) = some size :=
    fun hash size isSize => synced.listed hash size isSize (unpublished hash)
  have files : ∀ path size, cache.disk path = some size ↔
      itemPath path.2 = path ∧ cache.itemSize path.2 = some size := by
    intro path size
    constructor
    · intro present
      obtain ⟨placed, cause⟩ := synced.known path size present
      refine ⟨placed, ?_⟩
      rcases cause with isListed | ⟨renamed, publishing⟩ | removing
      · obtain ⟨other, isSize⟩ := Option.ne_none_iff_exists'.mp isListed
        have also := listed path.2 other isSize
        rw [placed, present] at also
        rw [isSize, also]
      · exact absurd publishing (unpublished path.2 renamed)
      · exact absurd removing (settled path.2)
    · rintro ⟨placed, isSize⟩
      rw [← placed]
      exact listed path.2 size isSize
  refine ⟨files, ?_, ?_⟩
  · intro hash contains
    obtain ⟨item, looked⟩ := Option.isSome_iff_exists.mp contains
    have isSize : cache.itemSize hash = some item.size := by
      simp [itemSize, looked]
    rw [listed hash item.size isSize]
    rfl
  · intro paths nodup
    have sizes : paths.map (fun path => (cache.disk path).getD 0) =
        paths.map (placedSize cache.memory.state.items) := by
      apply List.map_congr_left
      intro path _
      unfold placedSize
      split <;> rename_i placed
      · congr 1
        apply Option.ext
        intro size
        rw [files path size]
        exact and_iff_right placed
      · cases present : cache.disk path with
        | none => rfl
        | some size => exact absurd ((files path size).mp present).1 placed
    rw [sizes]
    refine Nat.le_trans (sum_placedSize_le _ nodup) ?_
    have accounted := memory.accounted
    unfold State.Accounted at accounted
    have bounded := memory.bounded
    omega

/-- A run from a tidy directory, all of whose steps keep the files, reaches
only states whose files are in step with the items when no call is in
progress. -/
theorem inStep_of_keeps {root : Option (List Shard)} {capacity : Nat}
    (tidy : Tidy root capacity) {events : List Event}
    (keeps : AllSteps step KeepsFiles (new root capacity) events)
    {cache : FileCache}
    (run : exec step (new root capacity) events = some cache)
    (quiet : cache.Quiet) : cache.InStep capacity := by
  have preserved : ∀ (cache : FileCache) event next,
      (Attended cache.flights ∧ cache.Checked ∧ cache.Synced ∧
        cache.memory.Bounded ∧ cache.memory.capacity = capacity) →
      cache.KeepsFiles event → cache.step event = some next →
      (Attended next.flights ∧ next.Checked ∧ next.Synced ∧
        next.memory.Bounded ∧ next.memory.capacity = capacity) := by
    rintro cache event next ⟨attended, checked, synced, bounded, same⟩ keeps
      stepped
    refine ⟨(moves_step stepped).attended attended,
      checked.step attended stepped, synced.step attended keeps stepped, ?_⟩
    rcases memory_step checked stepped with memory | ⟨access, accessed⟩
    · rw [memory]
      exact ⟨bounded, same⟩
    · exact ⟨bounded.step accessed,
        (Memory.capacity_step accessed).trans same⟩
  obtain ⟨_, _, synced, bounded, same⟩ := exec_invariant preserved
    ⟨attended_new root capacity, checked_new root capacity, synced_new tidy,
      bounded_new tidy, rfl⟩ keeps run
  exact same ▸ synced.inStep bounded quiet

theorem tidy_none (capacity : Nat) : Tidy none capacity := by
  constructor
  · intro file member
    cases member
  · exact List.Pairwise.nil
  · exact Nat.zero_le _

theorem keepsFiles_of_here {cache : FileCache} {call : Nat} {action : Action}
    {found : Call} (here : cache.calls call = some found)
    (undropped : action ≠ .drop) (nothing : found.removesNext action = none) :
    cache.KeepsFiles (.advance call action) := by
  intro other there
  obtain rfl := Option.some.inj (here.symm.trans there)
  refine ⟨fun drop => absurd drop undropped, ?_⟩
  intro hash removes
  rw [nothing] at removes
  cases removes

/-- A file is downloaded and published. -/
def publishedEvents : List Event :=
  let hash := ['a', 'b']
  [.populate 0 hash (some 4), .advance 0 .check, .advance 0 (.enter true),
    .advance 0 (.acquire true), .advance 0 (.fetched (some 4)),
    .advance 0 (.rename true), .advance 0 (.publish [⟨hash, ⟨4, 1⟩⟩]),
    .advance 0 .evict, .advance 0 .release]

theorem inStep_of_keeps_published :
    ∃ cache, exec step (new none 10) publishedEvents = some cache ∧
      cache.contains ['a', 'b'] = true ∧ cache.InStep 10 := by
  have keeps : AllSteps step KeepsFiles (new none 10) publishedEvents := by
    apply AllSteps.cons trivial rfl
    repeat refine AllSteps.cons (keepsFiles_of_here rfl nofun rfl) rfl ?_
    trivial
  have ran : ∃ cache, exec step (new none 10) publishedEvents = some cache ∧
      cache.contains ['a', 'b'] = true ∧ cache.Quiet := by
    refine ⟨_, rfl, rfl, ?_⟩
    rintro (_ | call) found here
    · obtain rfl := Option.some.inj here
      exact ⟨.ok, rfl⟩
    · cases here
  obtain ⟨cache, run, contains, quiet⟩ := ran
  exact ⟨cache, run, contains,
    inStep_of_keeps (tidy_none 10) keeps run quiet⟩

/-- The call is dropped while it waits for the lock, with its file in place. -/
def abandonedEvents : List Event :=
  [.populate 0 ['a', 'b'] (some 4), .advance 0 .check,
    .advance 0 (.enter true), .advance 0 (.acquire true),
    .advance 0 (.fetched (some 4)), .advance 0 (.rename true),
    .advance 0 .drop, .advance 0 .release]

/-- The file is published again between the two halves of a `forget`. -/
def republishedEvents : List Event :=
  [.forget 0 ['a', 'b'], .advance 0 .erase] ++
    (publishedEvents.map fun event =>
      match event with
      | .populate _ hash size => .populate 1 hash size
      | .advance _ action => .advance 1 action
      | other => other) ++ [.advance 0 .unlink]

theorem not_inStep :
    (∃ cache, exec step (new none 10) abandonedEvents = some cache ∧
      cache.Quiet ∧ ¬ cache.InStep 10) ∧
    ∃ cache, exec step (new none 10) republishedEvents = some cache ∧
      cache.Quiet ∧ ¬ cache.InStep 10 := by
  constructor
  · refine ⟨_, rfl, ?_, fun inStep => ?_⟩
    · rintro (_ | call) found here
      · obtain rfl := Option.some.inj here
        exact ⟨.dropped, rfl⟩
      · cases here
    · obtain ⟨_, listed⟩ := (inStep.files (itemPath ['a', 'b']) 4).mp rfl
      cases listed
  · refine ⟨_, rfl, ?_, fun inStep => ?_⟩
    · rintro (_ | _ | call) found here
      · obtain rfl := Option.some.inj here
        exact ⟨.forgotten, rfl⟩
      · obtain rfl := Option.some.inj here
        exact ⟨.ok, rfl⟩
      · cases here
    · have opened := inStep.opens ['a', 'b'] rfl
      cases opened

end FileCache

end HfMount.Cache
