import HfMount.Vfs.BudgetCharges

/-!
# Writes in the budget

A write changes its file first and tells the counter when it has the lock of
the table.  Plain writes on one inode may overlap: the counter follows their
ends, and the farthest end is the length of the file.  A write that changes the
size of an encrypted file tells the counter of two containers, and has to be
the only one.
-/

namespace HfMount.Vfs

open SlashPath Inode Flush Encryption Transition

namespace StagingRun

open StagingDir

/-! ## Writes on the files -/

/-- The effect of a write that has changed its file. -/
structure Pushed (state next : StagingRun) (write : LocalWrite)
    (length : Nat) : Prop where
  mode : next.mode = state.mode
  writes : next.writes = write :: state.writes
  table : next.table = state.table
  fileSize : ∀ other, next.dir.fileSize other =
    if other = write.ino then length else state.dir.fileSize other
  bytesUsed : next.dir.bytesUsed = state.dir.bytesUsed

namespace Pushed

variable {state next : StagingRun} {write : LocalWrite} {length : Nat}

theorem writesTo (pushed : state.Pushed next write length) :
    next.writesTo write.ino = write :: state.writesTo write.ino := by
  simp [StagingRun.writesTo, pushed.writes]

theorem charges (pushed : state.Pushed next write length) :
    next.charges write.ino =
      (write.charge state.table).toList ++ state.charges write.ino := by
  unfold StagingRun.charges
  rw [pushed.writesTo, pushed.table, List.filterMap_cons]
  cases write.charge state.table with
  | none => rfl
  | some charge => rfl

theorem length_eq (pushed : state.Pushed next write length) :
    next.dir.fileSize write.ino = length := by
  rw [pushed.fileSize, if_pos rfl]

theorem sameElsewhere (pushed : state.Pushed next write length) :
    state.SameElsewhere next write.ino := by
  have writesTo : ∀ other ≠ write.ino,
      next.writesTo other = state.writesTo other := by
    intro other distinct
    simp [StagingRun.writesTo, pushed.writes, distinct.symm]
  refine ⟨pushed.mode, writesTo, ?_, ?_⟩
  · intro other distinct
    apply charges_congr (writesTo other distinct)
    intro write _ _
    rw [pushed.table]
  · intro other distinct
    rw [pushed.fileSize, if_neg distinct]

theorem kinds (pushed : state.Pushed next write length) (sound : state.Sound)
    (kind : write.isEncrypted = decide (state.mode = .encrypted)) :
    ∀ write ∈ next.writes,
      write.isEncrypted = decide (next.mode = .encrypted) := by
  intro other listed
  rw [pushed.writes] at listed
  rw [pushed.mode]
  rcases List.mem_cons.mp listed with rfl | earlier
  · exact kind
  · exact sound.kinds other earlier

theorem sound (pushed : state.Pushed next write length) (sound : state.Sound)
    (kind : write.isEncrypted = decide (state.mode = .encrypted))
    (level : next.Level write.ino ∧
      next.accounted write.ino = state.accounted write.ino)
    (fits : next.dir.totalLength ≤ u64Max) : next.Sound :=
  sound.kept pushed.sameElsewhere level.1 level.2 pushed.bytesUsed
    (pushed.kinds sound kind) fits

/-- A write that announces nothing leaves the length of its file. -/
theorem silent (pushed : state.Pushed next write length)
    (level : state.Level write.ino)
    (silent : write.charge state.table = none)
    (kept : length = state.dir.fileSize write.ino)
    (settled : state.mode = .encrypted → state.Settled write.ino) :
    next.Level write.ino ∧
      next.accounted write.ino = state.accounted write.ino := by
  have charges : next.charges write.ino = state.charges write.ino := by
    simp [pushed.charges, silent]
  have sizes := pushed.length_eq.trans kept
  refine ⟨level.transfer charges sizes ?_, accounted_congr charges sizes⟩
  intro encrypted pending
  rw [pushed.mode] at encrypted
  exact absurd (settled encrypted) pending

/-- A write that announces something starts from what the counter holds, and
leads to the length of the file or stays behind an earlier one. -/
theorem announced (pushed : state.Pushed next write length)
    (level : state.Level write.ino) {old new : Nat}
    (announced : write.charge state.table = some (old, new))
    (start : state.accounted write.ino = old)
    (grows : state.dir.fileSize write.ino ≤ length)
    (reaches : new ≤ length) (positive : 0 < length)
    (top : new = length ∨ ¬ state.Settled write.ino ∧
      length = state.dir.fileSize write.ino)
    (alone : state.mode = .encrypted → state.writesTo write.ino = []) :
    next.Level write.ino ∧
      next.accounted write.ino = state.accounted write.ino := by
  have charges : next.charges write.ino =
      (old, new) :: state.charges write.ino := by
    simp [pushed.charges, announced]
  have accounted : next.accounted write.ino = old := by
    simp [StagingRun.accounted, charges]
  have within := level.accounted_le
  refine ⟨⟨?_, ?_, ?_, ?_⟩, accounted.trans start.symm⟩
  · intro charge listed
    rw [charges] at listed
    rw [accounted]
    rcases List.mem_cons.mp listed with rfl | earlier
    · rfl
    · exact (level.start charge earlier).trans start
  · intro charge listed
    rw [charges] at listed
    rw [pushed.length_eq]
    rcases List.mem_cons.mp listed with rfl | earlier
    · exact ⟨by dsimp only; omega, reaches⟩
    · have below := level.below charge earlier
      omega
  · intro _
    rw [pushed.length_eq, charges]
    refine ⟨positive, ?_⟩
    rcases top with ends | ⟨pending, kept⟩
    · exact ⟨_, List.mem_cons_self, ends⟩
    · obtain ⟨_, charge, listed, ends⟩ := level.reached pending
      exact ⟨charge, List.mem_cons_of_mem _ listed, ends.trans kept.symm⟩
  · intro encrypted _
    rw [pushed.mode] at encrypted
    simp [pushed.writesTo, alone encrypted]

end Pushed

/-- The size that the inode has once the write is done. -/
def recordedSize (write : LocalWrite) (size : Nat) : Nat :=
  match write with
  | .plain _ newEnd => max size newEnd
  | .encrypted _ _ newPlaintext => newPlaintext

/-- A plain write announces its end to an inode that is shorter. -/
theorem exists_newEnd {write : LocalWrite}
    (plain : write.isEncrypted = false) :
    ∃ newEnd,
      (∀ size charge, write.chargeAt size = some charge ↔
        size < newEnd ∧ charge = (size, newEnd)) ∧
      ∀ size, recordedSize write size = max size newEnd := by
  cases write with
  | encrypted _ _ _ => cases plain
  | plain ino newEnd =>
      refine ⟨newEnd, ?_, fun _ => rfl⟩
      intro size charge
      simp only [LocalWrite.chargeAt, Option.ite_none_right_eq_some,
        Option.some.injEq]
      exact and_congr_right fun _ => eq_comm

/-- What a plain write announces starts from the size of the inode. -/
theorem plain_charge {table : InodeTable} {write : LocalWrite}
    {entry : InodeEntry} {charge : Nat × Nat}
    (plain : write.isEncrypted = false)
    (found : table.get write.ino = some entry)
    (charged : write.charge table = some charge) :
    charge.1 = entry.size ∧ entry.size < charge.2 := by
  obtain ⟨newEnd, ends, _⟩ := exists_newEnd plain
  rw [LocalWrite.charge, found, Option.bind_some, ends] at charged
  obtain ⟨beyond, rfl⟩ := charged
  exact ⟨rfl, beyond⟩

theorem Sound.plain_charges {state : StagingRun} (sound : state.Sound)
    (mode : state.mode ≠ .encrypted) {ino : Ino} {entry : InodeEntry}
    (found : state.table.get ino = some entry) {charge : Nat × Nat}
    (listed : charge ∈ state.charges ino) :
    charge.1 = entry.size ∧ entry.size < charge.2 := by
  obtain ⟨write, present, here, charged⟩ := mem_charges.mp listed
  have plain := sound.kinds write present
  rw [decide_eq_false mode] at plain
  exact plain_charge plain (here ▸ found) charged

theorem settled_of_missing {state : StagingRun} {ino : Ino}
    (missing : state.table.get ino = none) : state.Settled ino := by
  rw [settled_iff]
  intro write _ here
  simp [LocalWrite.charge, here, missing]

theorem lengthAfter_cases (state : StagingRun) (handle : WriteHandle)
    (offset written : Nat) :
    state.lengthAfter handle offset written = state.dir.fileSize handle.ino ∨
      state.lengthAfter handle offset written = offset + written ∧
        state.dir.fileSize handle.ino ≤ offset + written := by
  unfold lengthAfter
  split
  · omega
  · exact Or.inl rfl

theorem lengthAfter_detached {state : StagingRun} {handle : WriteHandle}
    (detached : state.isAttached handle = false) (offset written : Nat) :
    state.lengthAfter handle offset written =
      state.dir.fileSize handle.ino := by
  simp [lengthAfter, detached]

/-- The size of the inode is at once what the counter holds and less than the
length of the file while a plain write is going to announce something. -/
theorem Sound.started {state : StagingRun} (sound : state.Sound)
    (mode : state.mode ≠ .encrypted) {ino : Ino} {entry : InodeEntry}
    (found : state.table.get ino = some entry)
    (pending : ¬ state.Settled ino) :
    state.accounted ino = entry.size ∧
      entry.size < state.dir.fileSize ino := by
  have level := sound.level ino
  obtain ⟨_, charge, listed, top⟩ := level.reached pending
  obtain ⟨first, second⟩ := sound.plain_charges mode found listed
  rw [← level.start charge listed, ← top]
  exact ⟨first, second⟩

/-- The write leads to the new length, or is within what the inode has. -/
theorem level_of_pwrite {state next : StagingRun} (sound : state.Sound)
    {handle : WriteHandle} {offset written : Nat}
    (mode : state.mode ≠ .encrypted)
    (pushed : state.Pushed next (.plain handle.ino (offset + written))
      (state.lengthAfter handle offset written))
    (accurate : state.PwriteAccurate handle offset written) :
    next.Level handle.ino ∧
      next.accounted handle.ino = state.accounted handle.ino := by
  have level := sound.level handle.ino
  have plain : ∀ claim : Prop, state.mode = .encrypted → claim := by
    intro claim encrypted
    exact absurd encrypted mode
  have cases := state.lengthAfter_cases handle offset written
  unfold PwriteAccurate at accurate
  cases found : state.table.get handle.ino with
  | none =>
      simp only [found] at accurate
      have silent : LocalWrite.charge state.table
          (.plain handle.ino (offset + written)) = none := by
        simp [LocalWrite.charge, LocalWrite.ino, found]
      exact pushed.silent level silent accurate (plain _)
  | some entry =>
      simp only [found] at accurate
      have started := sound.started mode found
      by_cases beyond : entry.size < offset + written
      · have announced : LocalWrite.charge state.table
            (.plain handle.ino (offset + written)) =
              some (entry.size, offset + written) := by
          simp [LocalWrite.charge, LocalWrite.ino, found, LocalWrite.chargeAt,
            beyond]
        obtain ⟨extends_file, reaches⟩ := accurate.resolve_left (by omega)
        have before : state.accounted handle.ino = entry.size := by
          by_cases settled : state.Settled handle.ino
          · rw [settled.accounted]
            exact (extends_file.resolve_left (not_not.mpr settled)).symm
          · exact (started settled).1
        have within := level.accounted_le
        have grows : state.dir.fileSize handle.ino ≤
            state.lengthAfter handle offset written := by omega
        -- The file ends here, or an earlier write has taken it further.
        have top : offset + written =
              state.lengthAfter handle offset written ∨
            ¬ state.Settled handle.ino ∧
              state.lengthAfter handle offset written =
                state.dir.fileSize handle.ino := by
          rcases cases with kept | ⟨grown, _⟩
          · apply Or.inr
            refine ⟨?_, kept⟩
            intro settled
            rw [settled.accounted] at before
            omega
          · exact Or.inl grown.symm
        exact pushed.announced level announced before grows reaches (by omega)
          top (plain _)
      · have silent : LocalWrite.charge state.table
            (.plain handle.ino (offset + written)) = none := by
          simp [LocalWrite.charge, LocalWrite.ino, found, LocalWrite.chargeAt,
            Nat.le_of_not_lt beyond]
        have kept : state.lengthAfter handle offset written =
            state.dir.fileSize handle.ino := by
          rcases accurate with within | ⟨unsettled | exact_size, _⟩
          · exact within.2
          · have larger := (started unsettled).2
            omega
          · omega
        exact pushed.silent level silent kept (plain _)

theorem pushed_of_pwrite {state next : StagingRun} {handle : WriteHandle}
    {offset written : Nat}
    (stepped : state.pwrite handle offset written = some next) :
    state.mode ≠ .encrypted ∧
      state.Pushed next (.plain handle.ino (offset + written))
        (state.lengthAfter handle offset written) := by
  unfold StagingRun.pwrite at stepped
  split at stepped <;> rename_i allowed
  · cases stepped
    have lengths : ∀ other,
        (if state.isAttached handle then
          state.dir.place handle.ino false
            (state.lengthAfter handle offset written)
        else state.dir).fileSize other =
          if other = handle.ino then state.lengthAfter handle offset written
          else state.dir.fileSize other := by
      intro other
      split <;> rename_i attached
      · exact state.dir.fileSize_place handle.ino other false _
      · split <;> rename_i here
        · rw [here, lengthAfter_detached (Bool.eq_false_iff.mpr attached)]
        · rfl
    refine ⟨allowed.2, rfl, rfl, rfl, lengths, ?_⟩
    dsimp only
    split <;> simp
  · cases stepped

theorem Sound.pwrite {state next : StagingRun} (sound : state.Sound)
    {handle : WriteHandle} {offset written : Nat}
    (accurate : state.PwriteAccurate handle offset written)
    (stepped : state.pwrite handle offset written = some next)
    (fits : next.dir.totalLength ≤ u64Max) : next.Sound := by
  obtain ⟨mode, pushed⟩ := pushed_of_pwrite stepped
  apply pushed.sound sound _ (level_of_pwrite sound mode pushed accurate) fits
  simp [LocalWrite.isEncrypted, mode]

theorem containerBytes_of_some {plaintext size : Nat}
    (sized : Content.ciphertextSize plaintext = some size) :
    LocalWrite.containerBytes plaintext = size := by
  simp [LocalWrite.containerBytes, sized]

/-- Even an empty container has its headers. -/
theorem ciphertextSize_pos {plaintext size : Nat}
    (sized : Content.ciphertextSize plaintext = some size) : 0 < size := by
  obtain ⟨total, _⟩ := Content.ciphertextSize_eq_some.mp sized
  have headers : 0 < Content.containerHeaderLen := by decide
  omega

theorem level_of_encryptedWrite {state next : StagingRun}
    (sound : state.Sound) {ino : Ino} {oldPlaintext newPlaintext length : Nat}
    (pushed : state.Pushed next (.encrypted ino oldPlaintext newPlaintext)
      length)
    (accurate : state.EncryptedWriteAccurate ino oldPlaintext newPlaintext
      length) :
    next.Level ino ∧ next.accounted ino = state.accounted ino := by
  have level := sound.level ino
  unfold EncryptedWriteAccurate at accurate
  cases found : state.table.get ino with
  | none =>
      simp only [found] at accurate
      have silent : LocalWrite.charge state.table
          (.encrypted ino oldPlaintext newPlaintext) = none := by
        simp [LocalWrite.charge, LocalWrite.ino, found]
      exact pushed.silent level silent accurate
        fun _ => settled_of_missing found
  | some entry =>
      simp only [found] at accurate
      rcases accurate with ⟨unchanged, kept, settled⟩ |
        ⟨changed, alone, before, after, larger⟩
      · have silent : LocalWrite.charge state.table
            (.encrypted ino oldPlaintext newPlaintext) = none := by
          simp [LocalWrite.charge, LocalWrite.ino, found, LocalWrite.chargeAt,
            unchanged]
        exact pushed.silent level silent kept fun _ => settled
      · have settled : state.Settled ino := by
          simp [Settled, charges, alone]
        have announced : LocalWrite.charge state.table
            (.encrypted ino oldPlaintext newPlaintext) =
              some (state.dir.fileSize ino, length) := by
          simp [LocalWrite.charge, LocalWrite.ino, found, LocalWrite.chargeAt,
            changed, containerBytes_of_some before,
            containerBytes_of_some after]
        exact pushed.announced level announced settled.accounted larger le_rfl
          (ciphertextSize_pos after) (Or.inl rfl) fun _ => alone

theorem Sound.encryptedRead {state next : StagingRun} (sound : state.Sound)
    {ino : Ino} (stepped : state.encryptedRead ino = some next) :
    next.Sound := by
  unfold StagingRun.encryptedRead at stepped
  split at stepped
  · cases stepped
    exact sound.sameFiles rfl rfl (fun _ _ => rfl) rfl
  · cases stepped

theorem Sound.encryptedWrite {state next : StagingRun} (sound : state.Sound)
    {ino : Ino} {oldPlaintext newPlaintext length : Nat}
    (accurate : state.EncryptedWriteAccurate ino oldPlaintext newPlaintext
      length)
    (stepped : state.encryptedWrite ino oldPlaintext newPlaintext length =
      some next)
    (fits : next.dir.totalLength ≤ u64Max) : next.Sound := by
  unfold StagingRun.encryptedWrite at stepped
  split at stepped <;> rename_i allowed
  · have pushed : state.Pushed next
        (.encrypted ino oldPlaintext newPlaintext) length := by
      cases stepped
      refine ⟨rfl, rfl, rfl, ?_, by simp⟩
      intro other
      exact state.dir.fileSize_place ino other false length
    apply pushed.sound sound _
      (level_of_encryptedWrite sound pushed accurate) fits
    simp [LocalWrite.isEncrypted, allowed.1]
  · cases stepped

theorem Sound.encryptedWriteFails {state next : StagingRun}
    (sound : state.Sound) {ino : Ino} {oldPlaintext length : Nat}
    (accurate : state.dir.localExists ino → length = state.dir.fileSize ino)
    (stepped : state.encryptedWriteFails ino oldPlaintext length =
      some next) : next.Sound := by
  unfold StagingRun.encryptedWriteFails at stepped
  split at stepped
  · cases stepped
    refine sound.sameLengths rfl rfl (fun _ _ => rfl) ?_ ?_
    · intro other
      dsimp only
      split <;> rename_i there
      · exact fileSize_place_same (accurate there) false other
      · rfl
    · dsimp only
      split <;> simp
  · cases stepped

/-! ## Writes that take the lock of the table -/

theorem charge_touch (table : InodeTable) (ino : Ino) (write : LocalWrite) :
    write.charge (table.touch ino) = write.charge table := by
  unfold InodeTable.touch
  split
  · rfl
  · change write.charge (table.modifyEviction ino _) = _
    by_cases here : write.ino = ino
    · subst here
      unfold InodeTable.modifyEviction
      rw [charge_modify_self]
      rfl
    · exact charge_modify_of_ne table here _

theorem writesTo_erase {state next : StagingRun} {write : LocalWrite}
    (writes : next.writes = state.writes.erase write) (ino : Ino) :
    next.writesTo ino = (state.writesTo ino).erase write := by
  simp only [writesTo, writes, List.erase_filter]

theorem size_record (write : LocalWrite) (entry : InodeEntry) :
    (write.record entry).size = recordedSize write entry.size := by
  cases write <;> rfl

/-- A write that announces nothing leaves the size. -/
theorem recordedSize_of_silent {write : LocalWrite} {size : Nat}
    (silent : write.chargeAt size = none) : recordedSize write size = size := by
  cases write with
  | plain ino newEnd =>
      simp only [LocalWrite.chargeAt, ite_eq_right_iff, reduceCtorEq,
        imp_false] at silent
      simp only [recordedSize]
      omega
  | encrypted ino oldPlaintext newPlaintext =>
      simp only [LocalWrite.chargeAt, ite_eq_left_iff, reduceCtorEq,
        imp_false, not_not] at silent
      exact silent

/-- The effect of a write that takes the lock of the table. -/
structure Popped (state next : StagingRun) (write : LocalWrite) : Prop where
  mode : next.mode = state.mode
  writes : next.writes = state.writes.erase write
  table : next.table =
    (state.table.modify write.ino write.record).touch write.ino
  dir : next.dir = announce state.dir (write.charge state.table)

theorem popped_of_writeDone {state next : StagingRun} {write : LocalWrite}
    (stepped : state.writeDone write = some next) :
    write ∈ state.writes ∧ state.Popped next write := by
  unfold StagingRun.writeDone at stepped
  split at stepped <;> rename_i listed
  · split at stepped
    · cases stepped
    · cases stepped
      exact ⟨listed, rfl, rfl, rfl, rfl⟩
  · cases stepped

private theorem filterMap_erase_of_none {α β : Type} [DecidableEq α]
    {before after : α → Option β} {item : α} (silent : before item = none)
    {items : List α}
    (same : ∀ other ∈ items, after other = before other) :
    (items.erase item).filterMap after = items.filterMap before := by
  induction items with
  | nil => rfl
  | cons first rest ih =>
      have inRest : ∀ other ∈ rest, after other = before other := by
        intro other listed
        exact same other (List.mem_cons_of_mem _ listed)
      by_cases hit : first = item
      · rw [hit, List.erase_cons_head, List.filterMap_cons_none silent]
        exact List.filterMap_congr inRest
      · rw [List.erase_cons_tail (by simpa using hit), List.filterMap_cons,
          List.filterMap_cons, ih inRest, same first List.mem_cons_self]

namespace Popped

variable {state next : StagingRun} {write : LocalWrite}

theorem fileSize (popped : state.Popped next write) (ino : Ino) :
    next.dir.fileSize ino = state.dir.fileSize ino := by
  rw [popped.dir]
  cases write.charge state.table <;> rfl

/-- What another write announces afterwards. -/
theorem charge (popped : state.Popped next write) (other : LocalWrite) :
    other.charge next.table =
      if other.ino = write.ino then
        (state.table.get write.ino).bind fun entry =>
          other.chargeAt (recordedSize write entry.size)
      else other.charge state.table := by
  rw [popped.table, charge_touch]
  split <;> rename_i here
  · rw [← here, charge_modify_self]
    simp only [size_record]
  · exact charge_modify_of_ne state.table here write.record

theorem sameElsewhere (popped : state.Popped next write) :
    state.SameElsewhere next write.ino := by
  have writesTo : ∀ other ≠ write.ino,
      next.writesTo other = state.writesTo other := by
    intro other distinct
    rw [writesTo_erase popped.writes]
    apply List.erase_of_not_mem
    intro listed
    exact distinct (mem_writesTo.mp listed).2.symm
  refine ⟨popped.mode, writesTo, ?_, fun other _ => popped.fileSize other⟩
  intro other distinct
  apply charges_congr (writesTo other distinct)
  intro earlier _ here
  rw [popped.charge, if_neg (here ▸ distinct)]

theorem kinds (popped : state.Popped next write) (sound : state.Sound) :
    ∀ other ∈ next.writes,
      other.isEncrypted = decide (next.mode = .encrypted) := by
  intro other listed
  rw [popped.writes] at listed
  rw [popped.mode]
  exact sound.kinds other (List.mem_of_mem_erase listed)

/-- A write that announces nothing leaves what the others announce. -/
theorem charges_of_silent (popped : state.Popped next write)
    (silent : write.charge state.table = none) :
    next.charges write.ino = state.charges write.ino := by
  have same : ∀ other ∈ state.writesTo write.ino,
      other.charge next.table = other.charge state.table := by
    intro other listed
    obtain ⟨_, here⟩ := mem_writesTo.mp listed
    rw [popped.charge, if_pos here]
    cases found : state.table.get write.ino with
    | none => simp [LocalWrite.charge, here, found]
    | some entry =>
        have quiet : write.chargeAt entry.size = none := by
          simpa [LocalWrite.charge, found] using silent
        simp [LocalWrite.charge, here, found, recordedSize_of_silent quiet]
  unfold charges
  rw [writesTo_erase popped.writes]
  exact filterMap_erase_of_none silent same

theorem sound_of_silent (popped : state.Popped next write)
    (listed : write ∈ state.writes) (sound : state.Sound)
    (silent : write.charge state.table = none) : next.Sound := by
  have charges := popped.charges_of_silent silent
  have sizes := popped.fileSize write.ino
  have level := sound.level write.ino
  have dir : next.dir = state.dir := by
    rw [popped.dir, silent]
    rfl
  refine sound.kept popped.sameElsewhere (level.transfer charges sizes ?_)
    (accounted_congr charges sizes) ?_ (popped.kinds sound) ?_
  · intro encrypted pending
    rw [popped.mode] at encrypted
    -- The only write on the inode would be this one.
    have single := level.alone encrypted pending
    obtain ⟨only, isOnly⟩ := List.length_eq_one_iff.mp single
    have member : write ∈ state.writesTo write.ino :=
      mem_writesTo.mpr ⟨listed, rfl⟩
    rw [isOnly, List.mem_singleton] at member
    apply absurd _ pending
    simp [StagingRun.charges, isOnly, ← member, silent]
  · rw [dir]
  · rw [dir]
    exact sound.fits

/-- Plain writes on an inode announce their ends, before and after one of them
is done. -/
theorem plain_charges (popped : state.Popped next write)
    (sound : state.Sound) (mode : state.mode ≠ .encrypted)
    {entry : InodeEntry} (found : state.table.get write.ino = some entry)
    {old new : Nat} (announced : write.charge state.table = some (old, new))
    (listed : write ∈ state.writes) {other : LocalWrite}
    (present : other ∈ state.writes) (here : other.ino = write.ino) :
    ∃ newEnd, ∀ charge,
      (other.charge state.table = some charge ↔
        entry.size < newEnd ∧ charge = (entry.size, newEnd)) ∧
      (other.charge next.table = some charge ↔
        new < newEnd ∧ charge = (new, newEnd)) := by
  have plain : ∀ other ∈ state.writes, other.isEncrypted = false := by
    intro other present
    rw [sound.kinds other present]
    exact decide_eq_false mode
  have recorded : recordedSize write entry.size = new := by
    obtain ⟨newEnd, charges, records⟩ := exists_newEnd (plain write listed)
    rw [LocalWrite.charge, found, Option.bind_some, charges] at announced
    obtain ⟨_, same⟩ := announced
    cases same
    rw [records]
    omega
  obtain ⟨newEnd, ends, _⟩ := exists_newEnd (plain other present)
  refine ⟨newEnd, fun charge => ⟨?_, ?_⟩⟩
  · rw [LocalWrite.charge, here, found, Option.bind_some, ends]
  · rw [popped.charge, if_pos here, found, Option.bind_some, recorded, ends]

/-- What is still announced starts from the end of the write that is done. -/
theorem charges_of_plain (popped : state.Popped next write)
    (sound : state.Sound) (mode : state.mode ≠ .encrypted)
    {entry : InodeEntry} (found : state.table.get write.ino = some entry)
    {old new : Nat} (announced : write.charge state.table = some (old, new))
    (listed : write ∈ state.writes) {charge : Nat × Nat}
    (pending : charge ∈ next.charges write.ino) :
    charge.1 = new ∧ new < charge.2 ∧
      charge.2 ≤ state.dir.fileSize write.ino := by
  have mine : (old, new) ∈ state.charges write.ino :=
    mem_charges.mpr ⟨write, listed, rfl, announced⟩
  obtain ⟨_, larger⟩ := sound.plain_charges mode found mine
  obtain ⟨other, present, here, charged⟩ := mem_charges.mp pending
  rw [popped.writes] at present
  have before := List.mem_of_mem_erase present
  obtain ⟨newEnd, ends⟩ :=
    popped.plain_charges sound mode found announced listed before here
  obtain ⟨beyond, rfl⟩ := (ends charge).2.mp charged
  have also : (entry.size, newEnd) ∈ state.charges write.ino :=
    mem_charges.mpr ⟨other, before, here,
      (ends _).1.mpr ⟨larger.trans beyond, rfl⟩⟩
  exact ⟨rfl, beyond, ((sound.level write.ino).below _ also).2⟩

/-- The write that leads to the length of the file is another one when the
file goes on behind the write that is done. -/
theorem reaching_of_plain (popped : state.Popped next write)
    (sound : state.Sound) (mode : state.mode ≠ .encrypted)
    {entry : InodeEntry} (found : state.table.get write.ino = some entry)
    {old new : Nat} (announced : write.charge state.table = some (old, new))
    (listed : write ∈ state.writes)
    (short : new < state.dir.fileSize write.ino) :
    (new, state.dir.fileSize write.ino) ∈ next.charges write.ino := by
  have mine : (old, new) ∈ state.charges write.ino :=
    mem_charges.mpr ⟨write, listed, rfl, announced⟩
  obtain ⟨_, charge, reaching, top⟩ :=
    (sound.level write.ino).reached (List.ne_nil_of_mem mine)
  obtain ⟨other, present, here, charged⟩ := mem_charges.mp reaching
  have distinct : other ≠ write := by
    intro same
    rw [same, announced] at charged
    cases charged
    exact absurd top short.ne
  have still : other ∈ next.writes := by
    rw [popped.writes]
    exact (List.mem_erase_of_ne distinct).mpr present
  obtain ⟨newEnd, ends⟩ :=
    popped.plain_charges sound mode found announced listed present here
  obtain ⟨_, rfl⟩ := (ends charge).1.mp charged
  dsimp only at top
  refine mem_charges.mpr ⟨other, still, here, (ends _).2.mpr ?_⟩
  rw [top]
  exact ⟨short, rfl⟩

/-- A plain write that is done leaves the counter at its own end. -/
theorem level_of_plain (popped : state.Popped next write)
    (sound : state.Sound) (mode : state.mode ≠ .encrypted)
    {entry : InodeEntry} (found : state.table.get write.ino = some entry)
    {old new : Nat} (announced : write.charge state.table = some (old, new))
    (listed : write ∈ state.writes) :
    next.Level write.ino ∧ next.accounted write.ino = new := by
  have sizes := popped.fileSize write.ino
  have mine : (old, new) ∈ state.charges write.ino :=
    mem_charges.mpr ⟨write, listed, rfl, announced⟩
  have within := ((sound.level write.ino).below (old, new) mine).2
  have charges : ∀ charge ∈ next.charges write.ino, charge.1 = new ∧
      new < charge.2 ∧ charge.2 ≤ state.dir.fileSize write.ino := by
    intro charge pending
    exact popped.charges_of_plain sound mode found announced listed pending
  have reaching :=
    popped.reaching_of_plain sound mode found announced listed
  have accounted : next.accounted write.ino = new := by
    cases pending : next.charges write.ino with
    | nil =>
        rw [Settled.accounted pending, sizes]
        by_contra differs
        have another := reaching (by omega)
        simp [pending] at another
    | cons charge rest =>
        have first := charges charge (by simp [pending])
        simp [StagingRun.accounted, pending, first.1]
  refine ⟨⟨?_, ?_, ?_, ?_⟩, accounted⟩
  · intro charge pending
    rw [accounted]
    exact (charges charge pending).1
  · intro charge pending
    have bounds := charges charge pending
    rw [sizes]
    omega
  · intro pending
    obtain ⟨charge, first⟩ := List.exists_mem_of_ne_nil _ pending
    have bounds := charges charge first
    rw [sizes]
    exact ⟨by omega, _, reaching (by omega), rfl⟩
  · intro encrypted
    exact absurd (popped.mode ▸ encrypted) mode

/-- A write of an encrypted file is alone when it announces something. -/
theorem settled_of_encrypted (popped : state.Popped next write)
    (sound : state.Sound) (mode : state.mode = .encrypted)
    {charge : Nat × Nat} (announced : write.charge state.table = some charge)
    (listed : write ∈ state.writes) :
    next.Settled write.ino ∧ charge.2 = state.dir.fileSize write.ino := by
  have level := sound.level write.ino
  have mine : charge ∈ state.charges write.ino :=
    mem_charges.mpr ⟨write, listed, rfl, announced⟩
  have pending : state.charges write.ino ≠ [] := List.ne_nil_of_mem mine
  obtain ⟨only, isOnly⟩ :=
    List.length_eq_one_iff.mp (level.alone mode pending)
  have member : write ∈ state.writesTo write.ino :=
    mem_writesTo.mpr ⟨listed, rfl⟩
  rw [isOnly, List.mem_singleton] at member
  subst member
  constructor
  · simp [Settled, StagingRun.charges, writesTo_erase popped.writes, isOnly]
  · obtain ⟨_, reaching, isReaching, top⟩ := level.reached pending
    simp only [StagingRun.charges, isOnly, List.filterMap_cons_some announced,
      List.filterMap_nil, List.mem_singleton] at isReaching
    rw [← isReaching]
    exact top

theorem sound (popped : state.Popped next write) (sound : state.Sound)
    (listed : write ∈ state.writes) : next.Sound := by
  cases announced : write.charge state.table with
  | none => exact popped.sound_of_silent listed sound announced
  | some charge =>
      obtain ⟨old, new⟩ := charge
      have mine : (old, new) ∈ state.charges write.ino :=
        mem_charges.mpr ⟨write, listed, rfl, announced⟩
      have before := (sound.level write.ino).start (old, new) mine
      have after : next.Level write.ino ∧ next.accounted write.ino = new := by
        by_cases mode : state.mode = .encrypted
        · obtain ⟨settled, top⟩ :=
            popped.settled_of_encrypted sound mode announced listed
          refine ⟨settled.level, ?_⟩
          rw [settled.accounted, popped.fileSize]
          exact top.symm
        · cases found : state.table.get write.ino with
          | none => simp [LocalWrite.charge, found] at announced
          | some entry =>
              exact popped.level_of_plain sound mode found announced listed
      refine sound.resized popped.sameElsewhere after.1 ?_
        (popped.kinds sound) ?_
      · rw [popped.dir, announced, ← before, after.2]
        rfl
      · rw [totalLength_congr popped.fileSize]
        exact sound.fits

end Popped

end StagingRun

end HfMount.Vfs
