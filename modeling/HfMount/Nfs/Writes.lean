import HfMount.Nfs.Coherent

/-!
# Calls that change a file

A `WRITE`, a `CREATE` and a truncation, step by step: none of them leaves a
pooled handle behind that is bound to something else than its inode.
-/

namespace HfMount.Nfs

open SlashPath Inode Flush Prefetch Slice StagingCache Transition

variable {σ : Type}

namespace Adapter

section

variable {store : ContentStore} {before after : Adapter σ} {ino : Ino}
  {cache next : StagingCache}

/-! ## Writes and truncations -/

/-- Whatever runs on the inode after a step of operation 0 is that
operation. -/
theorem Coherent.ops_mine (coherent : Coherent store before)
    (found : before.files ino = some cache)
    (others : OthersKept cache.file next.file 0) {id : Nat} {op : FileOp}
    (running : next.file.op id = some op) : id = 0 := by
  by_contra distinct
  rw [others id distinct] at running
  exact distinct (coherent.ops ino cache found id op running).1

theorem Coherent.idle (coherent : Coherent store before)
    (quiet : busy before.call = none) (found : before.files ino = some cache)
    (id : Nat) : cache.file.op id = none := by
  cases running : cache.file.op id with
  | none => rfl
  | some op =>
      obtain ⟨_, mine⟩ := coherent.ops ino cache found id op running
      rw [quiet] at mine
      cases mine

theorem Coherent.opens (coherent : Coherent store before)
    (named : ∀ content, store.hash content ≠ []) (idle : before.call = none)
    (unpooled : before.pool.peek ino = none) (offset : Nat) (data : Bytes)
    (stepped : before.cacheStep store ino (.file (.openStart 0 false)) =
      some after) :
    Coherent store { after with call := some (.opening ino offset data) } := by
  obtain ⟨cache, next, found, moved, rfl⟩ := cacheStep_inv stepped
  have fits : cache.Fits (.file (.openStart 0 false)) := trivial
  refine coherent.setCache found
    (coherent.sound_step named found fits trivial moved) ?_ ?_ ?_ unpooled
  · intro handle pooled
    rw [unpooled] at pooled
    cases pooled
  · intro id op running
    exact ⟨coherent.ops_mine found (othersKept_step rfl (file_step moved))
      running, rfl⟩
  · intro other _ running
    rw [idle] at running
    cases running

/-- The call ends with the last operation. -/
theorem Coherent.ended (coherent : Coherent store before)
    (quiet : ∀ ino cache, before.files ino = some cache →
      ∀ id, cache.file.op id = none) :
    Coherent store { before with call := none } := by
  refine ⟨coherent.caches, coherent.fresh, coherent.pooled, ?_, trivial⟩
  intro ino cache found id op running
  rw [quiet ino cache found id] at running
  cases running

/-- No operation runs when the one of the call is finished. -/
theorem Coherent.quiet (coherent : Coherent store before)
    (found : before.files ino = some cache)
    (mine : ∀ other, busy before.call = some other → other = ino)
    (finished : cache.file.op 0 = none) {other : Ino} {cached : StagingCache}
    (foundOther : before.files other = some cached) (id : Nat) :
    cached.file.op id = none := by
  cases running : cached.file.op id with
  | none => rfl
  | some op =>
      obtain ⟨rfl, busyOther⟩ := coherent.ops other cached foundOther id op
        running
      obtain rfl := mine other busyOther
      obtain rfl := Option.some.inj (found.symm.trans foundOther)
      rw [finished] at running
      cases running

theorem Coherent.endIfDone (coherent : Coherent store before)
    (mine : busy before.call = some ino) :
    Coherent store (before.endIfDone ino) := by
  unfold Adapter.endIfDone
  split
  · rename_i cache found
    split <;> rename_i done
    · refine coherent.ended fun other cached foundOther id =>
        coherent.quiet found ?_ (by simpa using done) foundOther id
      intro busyIno busyOther
      exact Option.some.inj (busyOther.symm.trans mine)
    · exact coherent
  · exact coherent

/-- A handle is opened, and is private to the call. -/
theorem Held.allocate (coherent : Coherent store before) {handle : Nat}
    (held : before.Held store ino handle) (opened : OpenFile σ) :
    (before.allocate opened).Held store ino handle := by
  obtain ⟨kept, cache, isOpen, owner, found, bound⟩ := held
  have older := Nat.ne_of_lt (coherent.fresh handle kept isOpen)
  exact ⟨kept, cache, (Function.update_of_ne older _ _).trans isOpen, owner,
    found, bound⟩

theorem held_allocate {opened : OpenFile σ} (owner : opened.ino = ino)
    (found : before.files ino = some cache)
    (bound : Bound store cache.file opened) :
    (before.allocate opened).Held store ino before.nextHandle :=
  ⟨opened, cache, Function.update_self _ _ _, owner, found, bound⟩

theorem localHandle_allocate {opened : OpenFile σ}
    (isLocal : opened.isLocal = true) :
    (before.allocate opened).LocalHandle before.nextHandle := by
  intro other isOpen
  simp only [Adapter.allocate, setOpen, Function.update_self] at isOpen
  exact Option.some.inj isOpen ▸ isLocal

theorem Coherent.allocate (coherent : Coherent store before)
    (opened : OpenFile σ) {call : Option Call}
    (quiet : ∀ ino cache, before.files ino = some cache →
      ∀ id, cache.file.op id = none)
    (phase : PhaseFits store (before.allocate opened) call) :
    Coherent store { before.allocate opened with call } := by
  constructor
  · exact coherent.caches
  · intro handle other isOpen
    simp only [Adapter.allocate, setOpen] at isOpen ⊢
    by_cases same : handle = before.nextHandle
    · omega
    · rw [Function.update_of_ne same] at isOpen
      exact Nat.lt_succ_of_lt (coherent.fresh handle other isOpen)
  · exact fun ino handle pooled =>
      (coherent.pooled ino handle pooled).allocate coherent opened
  · intro ino cache found id op running
    rw [quiet ino cache found id] at running
    cases running
  · exact phase.mono (fun _ _ _ held => held) (fun _ _ pooled => pooled)
      (SameKinds.refl _)

/-- The open is done; its handle is bound to the staging file. -/
theorem Coherent.openDone (coherent : Coherent store before)
    (found : before.files ino = some cache) {offset file : Nat} {data : Bytes}
    (opening : before.call = some (.opening ino offset data))
    (finished : cache.file.op 0 = none) (staged : cache.file.staging = some file)
    (dirty : cache.file.entry.isDirty = true) :
    Coherent store { before.allocate (.localFile ino file true) with
      call := some (.opened ino before.nextHandle file offset data) } := by
  have unpooled : before.pool.peek ino = none := by
    have phase := coherent.phase
    rw [opening] at phase
    exact phase
  have mine : ∀ other, busy before.call = some other → other = ino := by
    intro other busyOther
    rw [opening] at busyOther
    exact (Option.some.inj busyOther).symm
  refine coherent.allocate _ (fun other cached foundOther id =>
    coherent.quiet found mine finished foundOther id) ⟨unpooled, ?_, ?_⟩
  · exact held_allocate rfl found ⟨staged, Or.inl dirty⟩
  · exact localHandle_allocate rfl

theorem release_frame (evicted : List (Ino × Nat)) (adapter : Adapter σ) :
    let released := evicted.foldl (fun adapter gone => adapter.release gone.2)
      adapter
    released.files = adapter.files ∧ released.pool = adapter.pool ∧
      released.nextHandle = adapter.nextHandle ∧
      released.call = adapter.call ∧
      (∀ handle opened, released.openFiles handle = some opened →
        adapter.openFiles handle = some opened) ∧
      ∀ handle, (∀ gone ∈ evicted, gone.2 ≠ handle) →
        released.openFiles handle = adapter.openFiles handle := by
  induction evicted generalizing adapter with
  | nil => exact ⟨rfl, rfl, rfl, rfl, fun _ _ isOpen => isOpen, fun _ _ => rfl⟩
  | cons gone evicted ih =>
      obtain ⟨files, pool, nextHandle, call, opens, kept⟩ :=
        ih (adapter.release gone.2)
      refine ⟨files, pool, nextHandle, call, ?_, ?_⟩
      · exact fun handle opened isOpen =>
          (release_openFiles (opens handle opened isOpen)).2
      · intro handle spared
        rw [List.foldl_cons, kept handle fun other member =>
          spared other (List.mem_cons_of_mem _ member)]
        have apart := (spared gone List.mem_cons_self).symm
        exact Function.update_of_ne apart _ _

/-- Nothing was pooled for the inode; its handle is pooled, and the handles
that make room are closed. -/
theorem Coherent.insertHandle (coherent : Coherent store before) {handle : Nat}
    (unpooled : before.pool.peek ino = none)
    (held : before.Held store ino handle)
    (quiet : busy before.call = none) :
    Coherent store { before.insertHandle ino handle with call := none } ∧
      (before.insertHandle ino handle).files = before.files ∧
      (before.insertHandle ino handle).pool.peek ino = some handle ∧
      (before.insertHandle ino handle).openFiles handle =
        before.openFiles handle ∧
      (before.insertHandle ino handle).call = before.call := by
  have inserted := HandlePool.peek_insert_self before.pool ino handle
  have split : before.insertHandle ino handle =
      (before.pool.insert ino handle).1.evicted.foldl
        (fun adapter gone => adapter.release gone.2)
        { before with pool := (before.pool.insert ino handle).2 } := by
    simp only [Adapter.insertHandle]
    rw [HandlePool.replaced_insert, unpooled]
  rw [split]
  obtain ⟨files, pool, nextHandle, call, opens, kept⟩ :=
    release_frame (before.pool.insert ino handle).1.evicted
      { before with pool := (before.pool.insert ino handle).2 }
  have spared : ∀ other kept, before.Held store other kept →
      (before.pool.insert ino handle).2.peek other = some kept →
      ∀ gone ∈ (before.pool.insert ino handle).1.evicted, gone.2 ≠ kept := by
    rintro other kept ⟨opened, _, isOpen, owner, _, _⟩ pooled gone member rfl
    obtain ⟨_, pooledGone, absent⟩ := HandlePool.evicted_insert member
    obtain ⟨openedGone, _, isOpenGone, ownerGone, _, _⟩ :=
      coherent.pooled gone.1 gone.2 pooledGone
    obtain rfl := Option.some.inj (isOpen.symm.trans isOpenGone)
    rw [← ownerGone, owner, pooled] at absent
    cases absent
  refine ⟨⟨?_, ?_, ?_, ?_, trivial⟩, files, ?_, ?_, call⟩
  · intro other cache found
    exact coherent.caches other cache (files ▸ found)
  · intro other opened isOpen
    dsimp only
    rw [nextHandle]
    exact coherent.fresh other opened (opens other opened isOpen)
  · intro other present pooled
    dsimp only at pooled
    rw [pool] at pooled
    have heldBefore : before.Held store other present := by
      by_cases same : other = ino
      · subst same
        obtain rfl := Option.some.inj (inserted.symm.trans pooled)
        exact held
      · exact coherent.pooled other present
          (HandlePool.peek_insert_of_ne same pooled)
    have stays := kept present (spared other present heldBefore pooled)
    obtain ⟨opened, cache, isOpen, owner, found, bound⟩ := heldBefore
    exact ⟨opened, cache, stays.trans isOpen, owner, files.symm ▸ found, bound⟩
  · intro other cache found id op running
    rw [coherent.idle quiet (files ▸ found) id] at running
    cases running
  · rw [pool]
    exact inserted
  · exact kept handle (spared ino handle held inserted)

end

end Adapter

end HfMount.Nfs
