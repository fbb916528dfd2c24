import HfMount.Nfs.Bound

/-!
# Coherent handles

Every pooled handle, and every handle that a call has opened and not pooled
yet, is bound to what its inode stands for.  Calls that change an inode have
to replace its pooled handle or write through it, and the invariant says in
each phase of a call which of the two it does.
-/

namespace HfMount.Nfs

open SlashPath Inode Flush Prefetch Slice StagingCache Transition

variable {σ : Type}

namespace Adapter

/-- An open handle of an inode that is bound to what the inode stands for. -/
def Held (store : ContentStore) (adapter : Adapter σ) (ino : Ino)
    (handle : Nat) : Prop :=
  ∃ opened cache, adapter.openFiles handle = some opened ∧ opened.ino = ino ∧
    adapter.files ino = some cache ∧ Bound store cache.file opened

def LocalHandle (adapter : Adapter σ) (handle : Nat) : Prop :=
  ∀ opened, adapter.openFiles handle = some opened → opened.isLocal = true

/-- The inode on which the call in progress has an operation of its own. -/
def busy : Option Call → Option Ino
  | some (.opening ino _ _) | some (.writing ino _) | some (.truncating ino) =>
      some ino
  | _ => none

/-- What holds in each phase of a call.  A call that has a handle of its own
has dropped the pooled one. -/
def PhaseFits (store : ContentStore) (adapter : Adapter σ) :
    Option Call → Prop
  | none => True
  | some (.reading ino handle) =>
      adapter.pool.peek ino = none ∧ adapter.Held store ino handle
  | some (.opening ino _ _) => adapter.pool.peek ino = none
  | some (.opened ino handle _ _ _) | some (.writing ino (some handle))
  | some (.publishing ino handle) => adapter.pool.peek ino = none ∧
      adapter.Held store ino handle ∧ adapter.LocalHandle handle
  | some (.writing ino none) | some (.truncating ino) =>
      ∀ handle, adapter.pool.peek ino = some handle →
        adapter.LocalHandle handle

structure Coherent (store : ContentStore) (adapter : Adapter σ) : Prop where
  caches : ∀ ino cache, adapter.files ino = some cache →
    Honest .plaintext store cache ∧ Plain store cache
  fresh : ∀ handle opened, adapter.openFiles handle = some opened →
    handle < adapter.nextHandle
  pooled : ∀ ino handle, adapter.pool.peek ino = some handle →
    adapter.Held store ino handle
  ops : ∀ ino cache, adapter.files ino = some cache →
    ∀ id op, cache.file.op id = some op → id = 0 ∧
      busy adapter.call = some ino
  phase : PhaseFits store adapter adapter.call

/-! ## Frames -/

section

variable {store : ContentStore} {before after : Adapter σ}

/-- The handles keep their kind, as far as they stay open. -/
def SameKinds (before after : Adapter σ) : Prop :=
  ∀ handle opened, after.openFiles handle = some opened →
    ∃ earlier, before.openFiles handle = some earlier ∧
      opened.isLocal = earlier.isLocal

theorem SameKinds.refl (adapter : Adapter σ) : SameKinds adapter adapter :=
  fun _ opened found => ⟨opened, found, rfl⟩

theorem LocalHandle.mono {handle : Nat} (isLocal : before.LocalHandle handle)
    (kinds : SameKinds before after) : after.LocalHandle handle := by
  intro opened found
  obtain ⟨earlier, foundEarlier, same⟩ := kinds handle opened found
  rw [same]
  exact isLocal earlier foundEarlier

/-- The handle that is private to a call. -/
def privateHandle : Option Call → Option (Ino × Nat)
  | some (.reading ino handle) | some (.opened ino handle _ _ _)
  | some (.writing ino (some handle)) | some (.publishing ino handle) =>
      some (ino, handle)
  | _ => none

theorem PhaseFits.held {call : Option Call} {ino : Ino} {handle : Nat}
    (phase : PhaseFits store before call)
    (mine : privateHandle call = some (ino, handle)) :
    before.pool.peek ino = none ∧ before.Held store ino handle := by
  cases call with
  | none => cases mine
  | some call =>
      cases call with
      | reading => cases mine; exact phase
      | opened => cases mine; exact ⟨phase.1, phase.2.1⟩
      | publishing => cases mine; exact ⟨phase.1, phase.2.1⟩
      | opening => cases mine
      | truncating => cases mine
      | writing ino opened =>
          cases opened with
          | none => cases mine
          | some => cases mine; exact ⟨phase.1, phase.2.1⟩

/-- A phase is kept by a step that keeps the private handle, and pools
nothing. -/
theorem PhaseFits.mono {call : Option Call}
    (phase : PhaseFits store before call)
    (held : ∀ ino handle, privateHandle call = some (ino, handle) →
      before.Held store ino handle → after.Held store ino handle)
    (pool : ∀ ino handle, after.pool.peek ino = some handle →
      before.pool.peek ino = some handle)
    (kinds : SameKinds before after) : PhaseFits store after call := by
  have empty : ∀ ino, before.pool.peek ino = none →
      after.pool.peek ino = none := by
    intro ino absent
    cases present : after.pool.peek ino with
    | none => rfl
    | some handle =>
        rw [pool ino handle present] at absent
        cases absent
  cases call with
  | none => trivial
  | some call =>
      cases call with
      | reading ino handle =>
          exact ⟨empty ino phase.1, held ino handle rfl phase.2⟩
      | opening ino => exact empty ino phase
      | opened ino handle =>
          exact ⟨empty ino phase.1, held ino handle rfl phase.2.1,
            phase.2.2.mono kinds⟩
      | publishing ino handle =>
          exact ⟨empty ino phase.1, held ino handle rfl phase.2.1,
            phase.2.2.mono kinds⟩
      | writing ino opened =>
          cases opened with
          | none =>
              exact fun handle present =>
                (phase handle (pool ino handle present)).mono kinds
          | some handle =>
              exact ⟨empty ino phase.1, held ino handle rfl phase.2.1,
                phase.2.2.mono kinds⟩
      | truncating ino =>
          exact fun handle present =>
            (phase handle (pool ino handle present)).mono kinds

/-- A step on the staged file of one inode. -/
theorem Held.setCache {ino other : Ino} {handle : Nat}
    {cache next : StagingCache} (found : before.files ino = some cache)
    (held : before.Held store other handle)
    (kept : other = ino → ∀ opened, before.openFiles handle = some opened →
      Bound store cache.file opened → Bound store next.file opened) :
    (before.setCache ino next).Held store other handle := by
  obtain ⟨opened, cached, isOpen, owner, foundCache, bound⟩ := held
  by_cases same : other = ino
  · subst same
    obtain rfl := Option.some.inj (found.symm.trans foundCache)
    exact ⟨opened, next, isOpen, owner, Function.update_self _ _ _,
      kept rfl opened isOpen bound⟩
  · exact ⟨opened, cached, isOpen, owner,
      (Function.update_of_ne same _ _).trans foundCache, bound⟩

theorem files_setCache {adapter : Adapter σ} {ino other : Ino}
    {next cache : StagingCache}
    (found : (adapter.setCache ino next).files other = some cache) :
    other = ino ∧ cache = next ∨
      other ≠ ino ∧ adapter.files other = some cache := by
  simp only [setCache] at found
  by_cases same : other = ino
  · rw [same, Function.update_self] at found
    exact Or.inl ⟨same, (Option.some.inj found).symm⟩
  · rw [Function.update_of_ne same] at found
    exact Or.inr ⟨same, found⟩

/-- A step of the call, or of a loop, on one staged file. -/
theorem Coherent.setCache (coherent : Coherent store before) {ino : Ino}
    {cache next : StagingCache} (found : before.files ino = some cache)
    (sound : Honest .plaintext store next ∧ Plain store next)
    {call : Option Call}
    (bound : ∀ handle, before.pool.peek ino = some handle →
      ∀ opened, before.openFiles handle = some opened →
      Bound store cache.file opened → Bound store next.file opened)
    (ops : ∀ id op, next.file.op id = some op → id = 0 ∧ busy call = some ino)
    (others : ∀ other, other ≠ ino → busy before.call = some other →
      busy call = some other)
    (phase : PhaseFits store (before.setCache ino next) call) :
    Coherent store { before.setCache ino next with call } := by
  constructor
  · intro other cached foundCache
    rcases files_setCache foundCache with ⟨rfl, rfl⟩ | ⟨distinct, foundCache⟩
    · exact sound
    · exact coherent.caches other cached foundCache
  · exact coherent.fresh
  · intro other handle pooled
    exact (coherent.pooled other handle pooled).setCache found fun same =>
      bound handle (same ▸ pooled)
  · intro other cached foundCache id op running
    rcases files_setCache foundCache with ⟨rfl, rfl⟩ | ⟨distinct, foundCache⟩
    · exact ops id op running
    · obtain ⟨zero, mine⟩ := coherent.ops other cached foundCache id op running
      exact ⟨zero, others other distinct mine⟩
  · exact phase.mono (fun _ _ _ held => held) (fun _ _ pooled => pooled)
      (SameKinds.refl _)

theorem cacheStep_inv {ino : Ino} {event : CacheEvent}
    (stepped : before.cacheStep store ino event = some after) :
    ∃ cache next, before.files ino = some cache ∧
      cache.step .plaintext store event = some next ∧
      after = before.setCache ino next := by
  obtain ⟨cache, found, stepping⟩ := Option.bind_eq_some_iff.mp stepped
  obtain ⟨next, moved, rfl⟩ := Option.map_eq_some_iff.mp stepping
  exact ⟨cache, next, found, moved, rfl⟩

end

/-! ## The condition -/

/-- The downloads of a lazy read deliver the object, and the prefetch buffer
is anchored. -/
def HandleFits (store : ContentStore) (adapter : Adapter σ)
    (handle offset count : Nat) (fetches : List (ReadEvent σ)) : Prop :=
  match adapter.openFiles handle with
  | some (.lazy _ hash reader) =>
      ∀ content ∈ StagingFormat.plaintext.remoteObject store hash,
        Reader.FetchesFit content reader (.read offset count :: fetches)
  | _ => True

instance (store : ContentStore) (adapter : Adapter σ)
    (handle offset count : Nat) (fetches : List (ReadEvent σ)) :
    Decidable (adapter.HandleFits store handle offset count fetches) := by
  unfold HandleFits
  split <;> infer_instance

/-- The update reports an object and its size, and does not change an inode
for which a `READ` has opened a handle and not pooled it yet. -/
def UpdateFits (store : ContentStore) (adapter : Adapter σ) (ino : Ino)
    (event : CacheEvent) : Prop :=
  ∀ cache ∈ adapter.files ino, cache.MetadataFits store event ∧
    ∀ owned ∈ privateHandle adapter.call, owned.1 = ino →
      cache.file.entry.isDirty = true

instance (store : ContentStore) (adapter : Adapter σ) (ino : Ino)
    (event : CacheEvent) : Decidable (adapter.UpdateFits store ino event) := by
  unfold UpdateFits
  infer_instance

/-- A step of the call in progress does not spoil the cache flag. -/
def CallFits (adapter : Adapter σ) (event : CacheEvent) : Prop :=
  ∀ ino ∈ busy adapter.call, ∀ cache ∈ adapter.files ino, cache.Fits event

instance (adapter : Adapter σ) (event : CacheEvent) :
    Decidable (adapter.CallFits event) := by
  unfold CallFits
  infer_instance

def Fits (store : ContentStore) (adapter : Adapter σ) : NfsEvent σ → Prop
  | .polled ino hash etag size mtime =>
      adapter.UpdateFits store ino (.updateRemote hash etag size mtime none)
  | .followed ino hash size mtime =>
      adapter.UpdateFits store ino (.mergeRemote hash size mtime)
  | .readShared ino offset count fetches =>
      ∀ handle ∈ adapter.pool.peek ino,
        adapter.HandleFits store handle offset count fetches
  | .readInsert offset count fetches =>
      ∀ owned ∈ privateHandle adapter.call,
        adapter.HandleFits store owned.2 offset count fetches
  -- a truncation finds no lazy handle in the pool
  | .setattrStart ino _ => ∀ handle ∈ adapter.pool.peek ino,
      ∀ opened ∈ adapter.openFiles handle, opened.isLocal = true
  | .callStep event => adapter.CallFits event
  | .writeRecorded => adapter.CallFits (.file (.writeDone 0))
  | _ => True

instance (store : ContentStore) (adapter : Adapter σ) (event : NfsEvent σ) :
    Decidable (adapter.Fits store event) := by
  cases event <;> unfold Fits <;> infer_instance

section

variable {store : ContentStore} {before after : Adapter σ} {ino : Ino}
  {cache next : StagingCache}

theorem Coherent.sound_step (coherent : Coherent store before)
    (named : ∀ content, store.hash content ≠ []) {event : CacheEvent}
    (found : before.files ino = some cache) (fits : cache.Fits event)
    (metadata : cache.MetadataFits store event)
    (moved : cache.step .plaintext store event = some next) :
    Honest .plaintext store next ∧ Plain store next := by
  obtain ⟨honest, plain⟩ := coherent.caches ino cache found
  exact ⟨step_honest named cache event next honest fits moved,
    step_plain named plain metadata moved⟩

theorem file_step {event : FileEvent}
    (moved : cache.step .plaintext store (.file event) = some next) :
    cache.file.step store event = some next.file := by
  simp only [StagingCache.step, StagingFormat.allows, if_true] at moved
  obtain ⟨file, stepped, rfl⟩ := Option.map_eq_some_iff.mp moved
  exact stepped

/-! ## The loops beside the calls -/

theorem Held.hasOpenHandles {handle : Nat} (coherent : Coherent store before)
    (held : before.Held store ino handle) : before.hasOpenHandles ino = true := by
  obtain ⟨opened, cache, isOpen, owner, _, _⟩ := held
  refine List.any_eq_true.mpr ⟨handle, ?_, ?_⟩
  · exact List.mem_range.mpr (coherent.fresh handle opened isOpen)
  · simp [isOpen, owner]

/-- Closing a handle of another inode. -/
theorem Held.release {other : Ino} {handle kept : Nat}
    (held : before.Held store other kept)
    (distinct : other ≠ ino)
    (owner : ∀ opened, before.openFiles handle = some opened →
      opened.ino = ino) : (before.release handle).Held store other kept := by
  obtain ⟨opened, cache, isOpen, mine, found, bound⟩ := held
  have apart : kept ≠ handle := by
    rintro rfl
    exact distinct (mine.symm.trans (owner opened isOpen))
  exact ⟨opened, cache, (Function.update_of_ne apart _ _).trans isOpen, mine,
    found, bound⟩

theorem release_openFiles {adapter : Adapter σ} {handle other : Nat}
    {opened : OpenFile σ}
    (isOpen : (adapter.release handle).openFiles other = some opened) :
    other ≠ handle ∧ adapter.openFiles other = some opened := by
  simp only [Adapter.release, setOpen] at isOpen
  by_cases same : other = handle
  · rw [same, Function.update_self] at isOpen
    cases isOpen
  · rw [Function.update_of_ne same] at isOpen
    exact ⟨same, isOpen⟩

theorem sameKinds_release (adapter : Adapter σ) (handle : Nat) :
    SameKinds adapter (adapter.release handle) :=
  fun _ opened isOpen => ⟨opened, (release_openFiles isOpen).2, rfl⟩

/-- Dropping the pooled handle of an inode. -/
theorem Coherent.drop (coherent : Coherent store before) {handle : Nat}
    (pooled : before.pool.peek ino = some handle) :
    Coherent store
      ({ before with pool := before.pool.remove ino }.release handle) := by
  have owner : ∀ opened, before.openFiles handle = some opened →
      opened.ino = ino := by
    intro opened isOpen
    obtain ⟨other, _, foundOther, mine, _⟩ := coherent.pooled ino handle pooled
    obtain rfl := Option.some.inj (isOpen.symm.trans foundOther)
    exact mine
  have keep : ∀ other kept, other ≠ ino → before.Held store other kept →
      ({ before with pool := before.pool.remove ino }.release handle).Held
        store other kept :=
    fun other kept distinct held => held.release distinct owner
  have left : ∀ other kept, (before.pool.remove ino).peek other = some kept →
      other ≠ ino ∧ before.pool.peek other = some kept := by
    intro other kept present
    by_cases same : other = ino
    · rw [same, HandlePool.peek_remove_self] at present
      cases present
    · exact ⟨same, by rwa [HandlePool.peek_remove_of_ne same] at present⟩
  constructor
  · exact coherent.caches
  · exact fun other opened isOpen =>
      coherent.fresh other opened (release_openFiles isOpen).2
  · intro other kept present
    obtain ⟨distinct, present⟩ := left other kept present
    exact keep other kept distinct (coherent.pooled other kept present)
  · exact coherent.ops
  · refine coherent.phase.mono ?_ (fun other kept present =>
      (left other kept present).2) (sameKinds_release _ handle)
    intro other kept mine held
    refine keep other kept ?_ held
    rintro rfl
    rw [(coherent.phase.held mine).1] at pooled
    cases pooled

theorem Coherent.invalidate (coherent : Coherent store before) (ino : Ino) :
    Coherent store (before.invalidate ino) := by
  unfold Adapter.invalidate
  split <;> rename_i pooled
  · exact coherent.drop pooled
  · exact coherent

end

end Adapter

end HfMount.Nfs
