import HfMount.Flush.DeleteQueue

/-!
# No queued delete is lost

A path that has been queued for deletion, and is not cancelled, stays in the
queue or in a batch until the Hub has carried out a batch with it, however many
calls of `flushPendingDeletes` are under way and whatever fails.
-/

namespace HfMount.Flush

open SlashPath Transition

namespace FlushManager

/-- The path is queued, or a call in progress has it. -/
inductive StillHas (fm : FlushManager) (path : Path) : Prop where
  | queued (member : path ∈ fm.pendingDeletes)
  | called (id : Nat) (batch : DeleteBatch) (held : fm.batch id = some batch)
      (member : path ∈ batch.paths)

/-- The step is the success of a Hub call with the path. -/
def Sends (fm : FlushManager) (path : Path) (event : DeleteEvent) : Prop :=
  ∃ id paths, event = .hubDone id true ∧
    fm.batch id = some (.calling paths) ∧ path ∈ paths

/-- Some step of the run is the success of a Hub call with the path. -/
inductive Sent (path : Path) : FlushManager → List DeleteEvent → Prop where
  | now {fm : FlushManager} {event : DeleteEvent} {events : List DeleteEvent}
      (sends : fm.Sends path event) : Sent path fm (event :: events)
  | later {fm next : FlushManager} {event : DeleteEvent}
      {events : List DeleteEvent} (stepped : fm.step event = some next)
      (sent : Sent path next events) : Sent path fm (event :: events)

section

variable {fm next : FlushManager} {path : Path}

/-- One batch goes on to its next phase with all its paths. -/
theorem StillHas.update (holds : fm.StillHas path) {id : Nat}
    {old new : DeleteBatch} (found : fm.batch id = some old)
    (queue : next.pendingDeletes = fm.pendingDeletes)
    (batch : next.batch = Function.update fm.batch id (some new))
    (same : new.paths = old.paths) : next.StillHas path := by
  cases holds with
  | queued member => exact .queued (queue ▸ member)
  | called other held inBatch member =>
      by_cases isId : other = id
      · subst isId
        obtain rfl := Option.some.inj (found.symm.trans inBatch)
        refine .called other new ?_ (same ▸ member)
        rw [batch, Function.update_self]
      · refine .called other held ?_ member
        rw [batch, Function.update_of_ne isId]
        exact inBatch

theorem StillHas.step (holds : fm.StillHas path) {event : DeleteEvent}
    (kept : ¬ event.Cancels path) (stepped : fm.step event = some next)
    (fresh : fm.batch fm.nextBatch = none) :
    next.StillHas path ∨ fm.Sends path event := by
  cases event with
  | enqueue other =>
      obtain rfl := Option.some.inj stepped
      left
      cases holds with
      | queued member => exact .queued (List.mem_append_left _ member)
      | called id batch held member => exact .called id batch held member
  | cancel other =>
      obtain rfl := Option.some.inj stepped
      left
      cases holds with
      | queued member =>
          refine .queued (List.mem_filter.mpr ⟨member, ?_⟩)
          exact decide_eq_true fun same => kept same.symm
      | called id batch held member => exact .called id batch held member
  | cancelPrefix start =>
      obtain rfl := Option.some.inj stepped
      left
      cases holds with
      | queued member =>
          refine .queued (List.mem_filter.mpr ⟨member, ?_⟩)
          rw [Bool.not_eq_true', Bool.eq_false_iff]
          exact fun below => kept (List.isPrefixOf_iff_prefix.mp below)
      | called id batch held member => exact .called id batch held member
  | take =>
      obtain rfl := takeDeletes_eq_some stepped
      left
      cases holds with
      | queued member =>
          exact .called fm.nextBatch _ (Function.update_self _ _ _) member
      | called id batch held member =>
          refine .called id batch ?_ member
          dsimp only
          rw [Function.update_of_ne]
          · exact held
          · rintro rfl
            rw [fresh] at held
            cases held
  | hubStart id =>
      obtain ⟨paths, found, rfl⟩ := startHubCall_eq_some stepped
      exact Or.inl (holds.update found rfl rfl rfl)
  | hubDone id succeeded =>
      obtain ⟨paths, found, rfl⟩ := finishHubCall_eq_some stepped
      cases succeeded with
      | false => exact Or.inl (holds.update found rfl rfl rfl)
      | true =>
          cases holds with
          | queued member => exact Or.inl (.queued member)
          | called other batch held member =>
              by_cases isId : other = id
              · subst isId
                obtain rfl := Option.some.inj (found.symm.trans held)
                exact Or.inr ⟨other, paths, rfl, found, member⟩
              · refine Or.inl (.called other batch ?_ member)
                dsimp only
                rw [Function.update_of_ne isId]
                exact held
  | requeue id =>
      obtain ⟨paths, found, rfl⟩ := requeue_eq_some stepped
      left
      cases holds with
      | queued member => exact .queued (List.mem_append_left _ member)
      | called other batch held member =>
          by_cases isId : other = id
          · subst isId
            obtain rfl := Option.some.inj (found.symm.trans held)
            exact .queued (List.mem_append_right _ member)
          · refine .called other batch ?_ member
            dsimp only
            rw [Function.update_of_ne isId]
            exact held

end

/-- A batch gets its number once. -/
theorem fresh_of_step {fm next : FlushManager} {event : DeleteEvent}
    (fresh : ∀ id, fm.nextBatch ≤ id → fm.batch id = none)
    (stepped : fm.step event = some next) :
    ∀ id, next.nextBatch ≤ id → next.batch id = none := by
  have updated : ∀ {id : Nat} {batch : DeleteBatch},
      fm.batch id = some batch → ∀ (after : Option DeleteBatch) other,
      fm.nextBatch ≤ other → Function.update fm.batch id after other = none := by
    intro id batch held after other isFresh
    rw [Function.update_of_ne]
    · exact fresh other isFresh
    · rintro rfl
      rw [fresh other isFresh] at held
      cases held
  cases event with
  | enqueue _ | cancel _ | cancelPrefix _ =>
      obtain rfl := Option.some.inj stepped
      exact fresh
  | take =>
      obtain rfl := takeDeletes_eq_some stepped
      intro id isFresh
      dsimp only at isFresh ⊢
      rw [Function.update_of_ne (by omega)]
      exact fresh id (by omega)
  | hubStart id =>
      obtain ⟨_, held, rfl⟩ := startHubCall_eq_some stepped
      exact updated held _
  | hubDone id succeeded =>
      obtain ⟨_, held, rfl⟩ := finishHubCall_eq_some stepped
      exact updated held _
  | requeue id =>
      obtain ⟨_, held, rfl⟩ := requeue_eq_some stepped
      exact updated held _

/-- In every interleaving: a path that was queued and is not cancelled is still
in the queue or in the hands of a call, or the Hub has carried out a batch that
had it. -/
theorem queued_delete_not_lost {before after : List DeleteEvent} {path : Path}
    {queued final : FlushManager}
    (ran : exec step new (before ++ [.enqueue path]) = some queued)
    (kept : ∀ event ∈ after, ¬ event.Cancels path)
    (run : exec step queued after = some final) :
    final.StillHas path ∨ Sent path queued after := by
  have fresh : ∀ id, queued.nextBatch ≤ id → queued.batch id = none :=
    exec_invariant_of_step (fun _ _ _ => fresh_of_step) (fun _ _ => rfl) ran
  have holds : queued.StillHas path := by
    obtain ⟨middle, _, last⟩ := exec_append_iff.mp ran
    obtain ⟨next, stepped, done⟩ := exec_cons_iff.mp last
    obtain rfl := Option.some.inj stepped
    obtain rfl := Option.some.inj done
    exact .queued (List.mem_append_right _ List.mem_cons_self)
  clear ran
  induction after generalizing queued with
  | nil =>
      obtain rfl : queued = final := by simpa using run
      exact Or.inl holds
  | cons event after ih =>
      obtain ⟨next, stepped, rest⟩ := exec_cons_iff.mp run
      rcases holds.step (kept event List.mem_cons_self) stepped
        (fresh _ (Nat.le_refl _)) with still | sends
      · have later : ∀ other ∈ after, ¬ other.Cancels path :=
          fun other member => kept other (List.mem_cons_of_mem _ member)
        exact (ih later rest (fresh_of_step fresh stepped) still).imp_right
          (.later stepped)
      · exact Or.inr (.now sends)

/-- The first call fails, and a second one takes the path again. -/
theorem queued_delete_not_lost_after_failure :
    let queued := (exec step new [.enqueue ['a']]).get rfl
    let after : List DeleteEvent :=
      [.take, .hubStart 0, .hubDone 0 false, .requeue 0, .take, .hubStart 1]
    ((exec step queued after).get rfl).StillHas ['a'] ∨
      Sent ['a'] queued after :=
  @queued_delete_not_lost [] [.take, .hubStart 0, .hubDone 0 false, .requeue 0,
    .take, .hubStart 1] ['a'] _ _ rfl (by simp [DeleteEvent.Cancels])
    (Option.some_get _).symm

end FlushManager

end HfMount.Flush
