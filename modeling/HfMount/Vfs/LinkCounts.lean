import HfMount.Vfs.Renamed

/-!
# The link counts of directories

A directory has one link for its entry, one for itself, and one for each
subdirectory.  The operations on the table keep that count.
-/

namespace HfMount.Inode

open SlashPath Vfs

theorem InodeEntry.Indexed.children_nodup {entry : InodeEntry}
    (indexed : entry.Indexed) : entry.children.Nodup :=
  indexed.nodup.of_map _

namespace InodeTable

def subdirectories (table : InodeTable) (entry : InodeEntry) : Nat :=
  entry.children.countP fun child => table.isDirectory child.ino

def Counted (table : InodeTable) : Prop :=
  ∀ (ino : Ino) (entry : InodeEntry), table.get ino = some entry →
    entry.kind = .directory → entry.nlink = 2 + table.subdirectories entry

/-! ## Counting -/

section Counting

variable {before after : List DirChild} {old new : DirChild → Bool}

/-- Two lists with the same counted elements. -/
theorem countP_eq_of_mem (nodupBefore : before.Nodup)
    (nodupAfter : after.Nodup)
    (same : ∀ child, child ∈ after ∧ new child = true ↔
      child ∈ before ∧ old child = true) :
    after.countP new = before.countP old := by
  rw [List.countP_eq_length_filter, List.countP_eq_length_filter]
  apply List.Perm.length_eq
  apply (List.perm_ext_iff_of_nodup (nodupAfter.filter _)
    (nodupBefore.filter _)).mpr
  intro child
  rw [List.mem_filter, List.mem_filter]
  exact same child

/-- One more element is counted. -/
theorem countP_succ_of_mem (nodupBefore : before.Nodup)
    (nodupAfter : after.Nodup) {extra : DirChild}
    (fresh : ¬ (extra ∈ before ∧ old extra = true))
    (same : ∀ child, child ∈ after ∧ new child = true ↔
      (child ∈ before ∧ old child = true) ∨ child = extra) :
    after.countP new = before.countP old + 1 := by
  rw [List.countP_eq_length_filter, List.countP_eq_length_filter,
    ← List.length_cons]
  apply List.Perm.length_eq
  apply (List.perm_ext_iff_of_nodup (nodupAfter.filter _)
    (List.nodup_cons.mpr ⟨?_, nodupBefore.filter _⟩)).mpr
  · intro child
    rw [List.mem_filter, List.mem_cons, List.mem_filter, same, or_comm]
  · rw [List.mem_filter]
    exact fresh

end Counting

/-! ## Changes that keep the tree -/

theorem Counted.similar {before after : InodeTable} (counted : before.Counted)
    (similar : Corresponding InodeEntry.SameLinks before after) : after.Counted := by
  intro ino other found directory
  obtain ⟨entry, foundEntry, same⟩ := similar.backward found
  have count := counted _ _ foundEntry (same.kind.symm.trans directory)
  rw [same.nlink, count, subdirectories, subdirectories, same.children]
  congr 2
  funext child
  cases got : before.get child.ino with
  | none =>
      have missing : after.get child.ino = none := by
        cases gotAfter : after.get child.ino with
        | none => rfl
        | some childEntry =>
            obtain ⟨childBefore, foundChild, _⟩ := similar.backward gotAfter
            rw [got] at foundChild
            cases foundChild
      simp only [isDirectory, got, missing]
  | some childEntry =>
      obtain ⟨childAfter, gotAfter, sameChild⟩ := similar.forward got
      simp only [isDirectory, got, gotAfter, Option.any_some, sameChild.kind]

theorem Counted.touched {table : InodeTable} (counted : table.Counted)
    (ino : Ino) {change : InodeEntry → InodeEntry}
    (same : ∀ entry : InodeEntry, entry.SameLinks (change entry)) :
    (table.modify ino change).Counted :=
  counted.similar
    (corresponding_modify .refl table ino same)

/-! ## Inodes that leave the tree -/

/-- Taking files out keeps the count. -/
theorem Counted.gone {before after : InodeTable} {gone : Ino → Prop}
    {related : InodeEntry → InodeEntry → Prop} (counted : before.Counted)
    (wf : before.WellFormed) (pruned : PrunedBy related before after gone)
    (files : ∀ ino entry, gone ino → before.get ino = some entry →
      entry.kind ≠ .directory)
    (links : ∀ ino entry other, before.get ino = some entry →
      after.get ino = some other → entry.kind = .directory →
      other.nlink = entry.nlink) : after.Counted := by
  intro ino other found directory
  obtain ⟨entry, foundEntry, whenGone⟩ := pruned.source found
  have stays : ¬ gone ino := by
    intro isGone
    have dead := (whenGone isGone).1
    rw [InodeEntry.isLive_of_directory directory] at dead
    cases dead
  obtain ⟨kept, foundKept, place, _, indexed, children⟩ :=
    pruned.kept stays foundEntry
  obtain rfl := Option.some.inj (found.symm.trans foundKept)
  have wasDirectory := place.kind.symm.trans directory
  rw [links ino entry other foundEntry found wasDirectory,
    counted _ _ foundEntry wasDirectory]
  congr 1
  apply Eq.symm
  apply countP_eq_of_mem (wf.indexed foundEntry).children_nodup
    indexed.children_nodup
  intro child
  rw [children, isDirectory_iff, isDirectory_iff, and_assoc]
  refine and_congr_right fun listed => ?_
  constructor
  · rintro ⟨notGone, childAfter, gotAfter, isDir⟩
    obtain ⟨childEntry, isChild⟩ := wf.child foundEntry listed
    obtain ⟨same, gotSame, samePlace, _⟩ := pruned.kept notGone isChild.found
    obtain rfl := Option.some.inj (gotAfter.symm.trans gotSame)
    exact ⟨childEntry, isChild.found, samePlace.kind.symm.trans isDir⟩
  · rintro ⟨childEntry, got, isDir⟩
    have notGone : ¬ gone child.ino := fun isGone =>
      files child.ino childEntry isGone got isDir
    obtain ⟨same, gotSame, samePlace, _⟩ := pruned.kept notGone got
    exact ⟨notGone, same, gotSame, samePlace.kind.trans isDir⟩

/-- The links of the inodes that a removal leaves. -/
theorem nlink_remove {table : InodeTable} (wf : table.WellFormed) {ino : Ino}
    {entry : InodeEntry} (found : table.get ino = some entry)
    (notRoot : ino ≠ rootInode) (live : entry.isLive = true) {other : Ino}
    {before after : InodeEntry} (foundBefore : table.get other = some before)
    (foundAfter : (table.remove ino).get other = some after) :
    after.nlink = if other = entry.parent ∧ entry.kind = .directory then
      before.nlink - 1 else before.nlink := by
  have listed := wf.lists_parent found notRoot live
  have cutsOff := wf.treelike.cutsOff listed
  by_cases isParent : other = entry.parent
  · subst isParent
    have shrunk := cutsOff.above foundBefore found
    obtain rfl := Option.some.inj (shrunk.symm.trans foundAfter)
    have kept : (before.removeChildByIno ino).nlink = before.nlink := by
      unfold InodeEntry.removeChildByIno
      split <;> rfl
    simp only [shrunkParent, kept, true_and]
  · obtain ⟨stays, _⟩ := cutsOff.source listed foundAfter
    rw [cutsOff.others stays isParent, foundBefore] at foundAfter
    obtain rfl := Option.some.inj foundAfter
    rw [if_neg fun both => isParent both.1]

/-- Removing a live inode with all that is below it keeps the count. -/
theorem Counted.remove {table : InodeTable} (counted : table.Counted)
    (wf : table.WellFormed) {ino : Ino} {entry : InodeEntry}
    (found : table.get ino = some entry) (notRoot : ino ≠ rootInode)
    (live : entry.isLive = true) : (table.remove ino).Counted := by
  have pruned := pruned_remove wf found notRoot live
  obtain ⟨parentEntry, foundParent, _, _, listed, _⟩ :=
    wf.parent found notRoot live
  intro other after foundAfter directory
  obtain ⟨before, foundBefore, whenGone⟩ := pruned.source foundAfter
  have stays : ¬ table.Below ino other := by
    intro isGone
    have dead := (whenGone isGone).1
    rw [InodeEntry.isLive_of_directory directory] at dead
    cases dead
  obtain ⟨kept, foundKept, place, _, indexed, children⟩ :=
    pruned.kept stays foundBefore
  obtain rfl := Option.some.inj (foundAfter.symm.trans foundKept)
  have wasDirectory := place.kind.symm.trans directory
  have nodup := (wf.indexed foundBefore).children_nodup
  -- A child that stays is a directory after the removal when it was before.
  have sameKind : ∀ child ∈ before.children, ¬ table.Below ino child.ino →
      (table.remove ino).isDirectory child.ino =
        table.isDirectory child.ino := by
    intro child inChildren notBelow
    obtain ⟨childEntry, isChild⟩ := wf.child foundBefore inChildren
    obtain ⟨same, gotSame, samePlace, _⟩ :=
      pruned.kept notBelow isChild.found
    rw [isDirectory_of_get gotSame, isDirectory_of_get isChild.found,
      samePlace.kind]
  have belowChild : ∀ child ∈ before.children,
      table.Below ino child.ino ↔ child.ino = ino := by
    intro child inChildren
    rw [wf.below_child_iff foundBefore inChildren]
    exact or_iff_left stays
  rw [nlink_remove wf found notRoot live foundBefore foundAfter,
    counted _ _ foundBefore wasDirectory]
  split <;> rename_i lost
  · obtain ⟨rfl, isDir⟩ := lost
    obtain rfl := Option.some.inj (foundBefore.symm.trans foundParent)
    have counts : table.subdirectories before =
        (table.remove ino).subdirectories after + 1 := by
      have fresh : ¬ ((⟨ino, entry.name⟩ : DirChild) ∈ after.children ∧
          (table.remove ino).isDirectory ino = true) := by
        rintro ⟨still, _⟩
        exact ((children _).mp still).2 .refl
      apply countP_succ_of_mem indexed.children_nodup nodup fresh
      intro child
      rw [children]
      constructor
      · rintro ⟨inChildren, isSub⟩
        by_cases same : child.ino = ino
        · right
          obtain ⟨childIno, childName⟩ := child
          obtain rfl : childIno = ino := same
          rw [(wf.indexed foundBefore).name_eq inChildren listed]
        · have notBelow := mt (belowChild child inChildren).mp same
          exact Or.inl ⟨⟨inChildren, notBelow⟩,
            (sameKind child inChildren notBelow).trans isSub⟩
      · rintro (⟨⟨inChildren, notBelow⟩, isSub⟩ | rfl)
        · exact ⟨inChildren,
            (sameKind child inChildren notBelow).symm.trans isSub⟩
        · exact ⟨listed, isDirectory_iff.mpr ⟨entry, found, isDir⟩⟩
    omega
  · congr 1
    apply Eq.symm
    apply countP_eq_of_mem nodup indexed.children_nodup
    intro child
    rw [children, and_assoc]
    refine and_congr_right fun inChildren => ?_
    constructor
    · rintro ⟨notBelow, isSub⟩
      exact (sameKind child inChildren notBelow).symm.trans isSub
    · intro isSub
      have notBelow : ¬ table.Below ino child.ino := by
        intro below
        have same := (belowChild child inChildren).mp below
        obtain ⟨childEntry, isChild⟩ := wf.child foundBefore inChildren
        have foundChild := isChild.found
        rw [same, found] at foundChild
        obtain rfl := Option.some.inj foundChild
        rw [isDirectory_of_get isChild.found] at isSub
        exact lost ⟨isChild.parent.symm, of_decide_eq_true isSub⟩
      exact ⟨notBelow, (sameKind child inChildren notBelow).trans isSub⟩

/-! ## Inserting -/

theorem Counted.insert {table : InodeTable} (counted : table.Counted)
    (wf : table.WellFormed) {parent : Ino} {name : Name}
    {parentEntry : InodeEntry} (found : table.get parent = some parentEntry)
    (directory : parentEntry.kind = .directory) (valid : ValidName name)
    (free : parentEntry.childIndex name = none) (kind : InodeKind) (size : Nat)
    (mtime : Time) (xetHash : Option Hash) (mode uid gid : Nat) (now : Time) :
    (table.insert parent name (childPath parentEntry.fullPath name) kind size
      mtime xetHash mode uid gid now).2.Counted := by
  obtain ⟨after, inserted, _, _, foundNew, foundParent, others⟩ :=
    insert_of_free wf found directory valid free kind size mtime xetHash mode
      uid gid now
  rw [inserted]
  have sameKind : ∀ ino, ino ≠ table.nextInode →
      after.isDirectory ino = table.isDirectory ino := by
    intro ino old
    by_cases isParent : ino = parent
    · rw [isParent, isDirectory_of_get foundParent, isDirectory_of_get found]
      rfl
    · rw [isDirectory, others ino old isParent, isDirectory]
  have oldChild : ∀ {ino entry} {child : DirChild},
      table.get ino = some entry → child ∈ entry.children →
      child.ino ≠ table.nextInode := by
    intro ino entry child got listed
    obtain ⟨childEntry, isChild⟩ := wf.child got listed
    exact Nat.ne_of_lt (wf.key isChild.found).2
  have kept : ∀ {ino entry}, table.get ino = some entry →
      after.subdirectories entry = table.subdirectories entry := by
    intro ino entry got
    apply List.countP_congr
    intro child listed
    rw [sameKind child.ino (oldChild got listed)]
  intro ino entry got isDir
  rcases get_insert_cases foundNew foundParent others got with
    ⟨_, rfl⟩ | ⟨_, rfl⟩ | ⟨_, old⟩
  · obtain rfl : kind = .directory := isDir
    rfl
  · have count := counted _ _ found directory
    have split : after.subdirectories
        (grownParent parentEntry table.nextInode name kind) =
          table.subdirectories parentEntry +
            if kind = .directory then 1 else 0 := by
      have children : (grownParent parentEntry table.nextInode name
          kind).children = parentEntry.children ++
            [⟨table.nextInode, name⟩] := rfl
      rw [subdirectories, children, List.countP_append, ← subdirectories,
        kept found]
      by_cases isDirectory : kind = .directory <;>
        simp [isDirectory_of_get foundNew, InodeEntry.new, isDirectory]
    rw [split]
    simp only [grownParent]
    split <;> omega
  · rw [kept old]
    exact counted _ _ old isDir

/-! ## Moving -/

/-- A move shifts the links of the two parents as it shifts their
subdirectories. -/
theorem Counted.moved {before after : InodeTable} (counted : before.Counted)
    (wf : before.WellFormed) {ino newParent : Ino} {newName : Name}
    {entry : InodeEntry} {oldPath newPath : Path}
    (found : before.get ino = some entry) (notRoot : ino ≠ rootInode)
    (live : entry.isLive = true)
    (moved : before.Moved after ino newParent newName oldPath newPath)
    (links : ∀ other, (after.get other).map (·.nlink) =
      (before.get other).map fun otherEntry =>
        linkShift (before.isDirectory ino) entry.parent newParent other
          otherEntry.nlink) : after.Counted := by
  obtain ⟨parentEntry, foundParent, _, _, listed, _⟩ :=
    wf.parent found notRoot live
  have sameKind : ∀ other, after.isDirectory other =
      before.isDirectory other := by
    intro other
    cases got : before.get other with
    | none =>
        have missing : after.get other = none := by
          cases gotAfter : after.get other with
          | none => rfl
          | some right =>
              obtain ⟨left, gotLeft⟩ := moved.source gotAfter
              rw [got] at gotLeft
              cases gotLeft
        simp only [isDirectory, got, missing]
    | some left =>
        obtain ⟨right, gotRight, same, _⟩ := moved.kept got
        rw [isDirectory_of_get got, isDirectory_of_get gotRight, same.kind]
  intro other right gotRight directory
  obtain ⟨left, gotLeft⟩ := moved.source gotRight
  obtain ⟨kept, gotKept, same, _⟩ := moved.kept gotLeft
  obtain rfl := Option.some.inj (gotRight.symm.trans gotKept)
  have count := counted _ _ gotLeft (same.kind.symm.trans directory)
  have shifted := links other
  rw [gotLeft, gotRight, Option.map_some, Option.map_some, Option.some.injEq,
    count] at shifted
  rw [shifted]
  have nodupLeft := (wf.indexed gotLeft).children_nodup
  have nodupRight := same.indexed.children_nodup
  -- Both counts are those of the children other than the moved one, plus one
  -- where the moved directory was or is.
  obtain ⟨rest, restDef⟩ : ∃ rest, rest = left.children.countP fun child =>
      before.isDirectory child.ino && decide (child.ino ≠ ino) := ⟨_, rfl⟩
  have listedHere : ∀ child ∈ left.children, child.ino = ino →
      other = entry.parent ∧ child = ⟨ino, entry.name⟩ := by
    intro child inChildren isIno
    obtain ⟨childEntry, isChild⟩ := wf.child gotLeft inChildren
    have foundChild := isChild.found
    rw [isIno, found] at foundChild
    obtain rfl := Option.some.inj foundChild
    refine ⟨isChild.parent.symm, ?_⟩
    obtain ⟨childIno, childName⟩ := child
    obtain rfl : childIno = ino := isIno
    rw [isChild.name]
  have leftCount : before.subdirectories left = rest +
      if other = entry.parent ∧ before.isDirectory ino = true then 1 else 0 := by
    rw [restDef]
    split <;> rename_i here
    · obtain ⟨rfl, isDir⟩ := here
      obtain rfl := Option.some.inj (gotLeft.symm.trans foundParent)
      have notCounted : ¬ ((⟨ino, entry.name⟩ : DirChild) ∈ left.children ∧
          (before.isDirectory ino && decide (ino ≠ ino)) = true) := by simp
      apply countP_succ_of_mem nodupLeft nodupLeft notCounted
      intro child
      constructor
      · rintro ⟨inChildren, isSub⟩
        by_cases isIno : child.ino = ino
        · exact Or.inr (listedHere child inChildren isIno).2
        · exact Or.inl ⟨inChildren, by simp [isSub, isIno]⟩
      · rintro (⟨inChildren, both⟩ | rfl)
        · simp only [Bool.and_eq_true] at both
          exact ⟨inChildren, both.1⟩
        · exact ⟨listed, isDir⟩
    · rw [Nat.add_zero]
      apply countP_eq_of_mem nodupLeft nodupLeft
      intro child
      refine and_congr_right fun inChildren => ?_
      simp only [Bool.and_eq_true, decide_eq_true_eq]
      refine (and_iff_left_of_imp fun isSub isIno => ?_).symm
      exact here ⟨(listedHere child inChildren isIno).1, isIno ▸ isSub⟩
  have rightCount : after.subdirectories right = rest +
      if other = newParent ∧ before.isDirectory ino = true then 1 else 0 := by
    rw [restDef, subdirectories]
    simp only [sameKind]
    split <;> rename_i here
    · obtain ⟨rfl, isDir⟩ := here
      have notCounted : ¬ ((⟨ino, newName⟩ : DirChild) ∈ left.children ∧
          (before.isDirectory ino && decide (ino ≠ ino)) = true) := by simp
      apply countP_succ_of_mem nodupLeft nodupRight notCounted
      intro child
      rw [same.children]
      constructor
      · rintro ⟨⟨inChildren, notIno⟩ | ⟨_, rfl⟩, isSub⟩
        · exact Or.inl ⟨inChildren, by simp [isSub, notIno]⟩
        · exact Or.inr rfl
      · rintro (⟨inChildren, both⟩ | rfl)
        · simp only [Bool.and_eq_true, decide_eq_true_eq] at both
          exact ⟨Or.inl ⟨inChildren, both.2⟩, both.1⟩
        · exact ⟨Or.inr ⟨rfl, rfl⟩, isDir⟩
    · rw [Nat.add_zero]
      apply countP_eq_of_mem nodupLeft nodupRight
      intro child
      rw [same.children]
      simp only [Bool.and_eq_true, decide_eq_true_eq]
      constructor
      · rintro ⟨⟨inChildren, notIno⟩ | ⟨isNew, rfl⟩, isSub⟩
        · exact ⟨inChildren, isSub, notIno⟩
        · exact absurd ⟨isNew, isSub⟩ here
      · rintro ⟨inChildren, isSub, notIno⟩
        exact ⟨Or.inl ⟨inChildren, notIno⟩, isSub⟩
  rw [leftCount, rightCount, linkShift]
  cases isDir : before.isDirectory ino with
  | false => simp
  | true =>
      by_cases sameParent : entry.parent = newParent
      · simp [sameParent]
      · by_cases isOld : other = entry.parent
        · have notNew : other ≠ newParent := isOld ▸ sameParent
          simp [isOld, sameParent]
        · by_cases isNew : other = newParent
          · have notOld : newParent ≠ entry.parent := Ne.symm sameParent
            simp [isNew, notOld, sameParent, Nat.add_assoc]
          · simp [isOld, isNew]

/-! ## The operations of the file system -/

theorem sameLinks_of_owing (left right : InodeEntry)
    (owing : left.Owing right) : left.SameLinks right := by
  refine ⟨owing.sameNode, ?_⟩
  obtain ⟨pending, rfl⟩ := owing
  rfl

theorem Counted.touchRenamed {table : InodeTable} (counted : table.Counted)
    (info : RenameInfo) (request : RenameRequest) (now : Time) :
    (table.touchRenamed info request now).Counted := by
  have touched : ∀ (current : InodeTable) (parent : Ino), current.Counted →
      (current.touchParent parent now).Counted := by
    intro current parent counts
    unfold touchParent
    apply counts.touched
    intro entry
    exact .of_fields rfl
  have last : ∀ current : InodeTable, current.Counted →
      (current.modify info.ino fun entry =>
        { entry with ctime := now }).Counted := by
    intro current counts
    apply counts.touched
    intro entry
    exact .of_fields rfl
  unfold InodeTable.touchRenamed
  dsimp only
  split
  · apply last
    exact touched _ _ counted
  · apply last
    apply touched
    exact touched _ _ counted

theorem Counted.moveRenamed {table : InodeTable} {info : RenameInfo}
    {request : RenameRequest} {entry newEntry : InodeEntry}
    (counted : table.Counted) (wf : table.WellFormed)
    (movable : table.Movable info request entry newEntry) (now : Time) :
    (table.moveRenamed info request now).Counted := by
  obtain ⟨_, recorded, moved, recordedDef, recordedWf, movedDef, isMoved,
    result⟩ := movable.moveRenamed wf now
  have owing : Corresponding InodeEntry.Owing table recorded :=
    recordedDef ▸ table.owing_record info
  have recordedCounted : recorded.Counted := by
    exact counted.similar (owing.mono sameLinks_of_owing)
  obtain ⟨source, found, same⟩ := owing.forward movable.found
  have live : source.isLive = true :=
    same.sameNode.isLive.trans movable.live
  have parent : source.parent = request.parent :=
    same.sameNode.parent.trans movable.parent
  have notOld : info.ino ≠ request.parent := by
    intro isParent
    obtain ⟨parentEntry, foundParent, _, valid, _, fullPath⟩ :=
      recordedWf.parent found movable.notRoot live
    rw [parent, ← isParent, found] at foundParent
    obtain rfl := Option.some.inj foundParent
    have longer := length_lt_childPath valid source.fullPath
    rw [← fullPath] at longer
    exact Nat.lt_irrefl _ longer
  have notNew : info.ino ≠ request.newparent := by
    intro isParent
    apply movable.destination.outside
    rw [← isParent]
  have movedCounted : moved.Counted := by
    apply recordedCounted.moved recordedWf found movable.notRoot live isMoved
    intro other
    rw [movedDef, parent]
    exact nlink_relocate recorded _ _ _ _ notOld notNew other
  rw [result]
  exact movedCounted.touchRenamed info request now

section

variable {table : InodeTable} {parent : Ino} {name : Name} {entry : InodeEntry}

/-- Unlinking a file leaves the links of every directory. -/
theorem Counted.unlinkOne (counted : table.Counted) (wf : table.WellFormed)
    (looked : table.lookupChild parent name = some entry)
    (file : entry.kind ≠ .directory) (now : Time) :
    (table.unlinkOne parent name now).2.Counted := by
  obtain ⟨parentEntry, _, foundEntry, _, _, _, unlinked⟩ :=
    unlinkOne_eq wf looked file now
  apply counted.gone wf (pruned_unlinkOne wf looked file now)
  · rintro ino before rfl foundBefore
    obtain rfl := Option.some.inj (foundBefore.symm.trans foundEntry)
    exact file
  · intro ino before after foundBefore foundAfter directory
    have notEntry : ino ≠ entry.inode := by
      rintro rfl
      obtain rfl := Option.some.inj (foundBefore.symm.trans foundEntry)
      exact file directory
    rw [unlinked, get_put_of_ne _ notEntry, get_removePath,
      get_modify] at foundAfter
    split at foundAfter <;> rename_i isParent
    · rw [← isParent, foundBefore] at foundAfter
      obtain rfl := Option.some.inj foundAfter
      dsimp only
      unfold InodeEntry.removeChildByName
      split <;> rfl
    · obtain rfl := Option.some.inj (foundBefore.symm.trans foundAfter)
      rfl

theorem Counted.erase (counted : table.Counted) (wf : table.WellFormed)
    {ino : Ino} (found : table.get ino = some entry)
    (file : entry.kind ≠ .directory)
    (pruned : table.Pruned (table.erase ino) (· = ino)) :
    (table.erase ino).Counted := by
  apply counted.gone wf pruned
  · rintro other before rfl foundBefore
    obtain rfl := Option.some.inj (foundBefore.symm.trans found)
    exact file
  · intro other before after foundBefore foundAfter _
    rw [get_erase] at foundAfter
    split at foundAfter
    · cases foundAfter
    · obtain rfl := Option.some.inj (foundBefore.symm.trans foundAfter)
      rfl

end

theorem Counted.removeOrphan {table : InodeTable} (counted : table.Counted)
    (wf : table.WellFormed) (ino : Ino) :
    (table.removeOrphan ino).WellFormed ∧
      (table.removeOrphan ino).Counted := by
  cases found : table.get ino with
  | none =>
      have same : table.removeOrphan ino = table := by
        simp only [InodeTable.removeOrphan, found]
      rw [same]
      exact ⟨wf, counted⟩
  | some entry =>
      by_cases orphan : entry.nlink = 0
      · have file : entry.kind ≠ .directory := by
          intro directory
          have count := counted _ _ found directory
          omega
        obtain ⟨erased, pruned⟩ := pruned_removeOrphan wf found file orphan
        refine ⟨wf.pruned pruned, ?_⟩
        rw [erased] at pruned ⊢
        exact counted.erase wf found file pruned
      · have same : table.removeOrphan ino = table := by
          simp only [InodeTable.removeOrphan, found, orphan, if_false]
        rw [same]
        exact ⟨wf, counted⟩

theorem Counted.replaceTarget {table : InodeTable} (counted : table.Counted)
    (wf : table.WellFormed) {request : RenameRequest} {existing : InodeEntry}
    (looked : table.lookupChild request.newparent request.newname =
      some existing) (now : Time) :
    (table.replaceTarget existing request now).2.Counted := by
  obtain ⟨parentEntry, found, listed, isChild⟩ := wf.lookupChild.mp looked
  have notRoot := (wf.directory found listed).2.1
  unfold InodeTable.replaceTarget
  split <;> rename_i directory
  · exact counted.remove wf isChild.found notRoot isChild.live
  · have unlinked := counted.unlinkOne wf looked directory now
    have stillWf := wf.pruned (pruned_unlinkOne wf looked directory now)
    dsimp only
    split
    · exact (unlinked.removeOrphan stillWf existing.inode).2
    · exact unlinked

theorem Counted.applied {table after : InodeTable} {info : RenameInfo}
    {request : RenameRequest} {now : Time} {dropped : Option Ino}
    (counted : table.Counted) (wf : table.WellFormed)
    (applied : Applied table info request now dropped after) :
    after.Counted := by
  cases applied with
  | sameInode => exact counted
  | free _ movable => exact counted.moveRenamed wf movable now
  | replaced looked _ pruned movable =>
      exact (counted.replaceTarget wf looked now).moveRenamed (wf.pruned pruned)
        movable now

end InodeTable

end HfMount.Inode
