import HfMount.Vfs.References

/-!
# What table operations do to the counts

Most operations leave the counts of every inode alone, some bring a new inode
in, and an eviction takes one out.
-/

namespace HfMount.Inode

open SlashPath

/-- The counts of an inode stay, and no link is lost. -/
structure InodeEntry.SameCounts (before after : InodeEntry) : Prop where
  inode : after.inode = before.inode
  links : before.nlink ≤ after.nlink
  nlookup : after.eviction.nlookup = before.eviction.nlookup
  openHandles : after.eviction.openHandles = before.eviction.openHandles
  pending : after.eviction.evictPending = before.eviction.evictPending

/-- What an inode must be for an eviction. -/
structure InodeEntry.Unreferenced (entry : InodeEntry) : Prop where
  isFile : entry.kind = .file
  nlookup : entry.eviction.nlookup = 0
  clean : entry.isDirty = false
  noDeletes : entry.pendingDeletes = []
  linked : 0 < entry.nlink

namespace InodeEntry

theorem isUnreferenced_iff {entry : InodeEntry} :
    entry.isUnreferenced = true ↔ entry.Unreferenced := by
  simp only [isUnreferenced, Bool.and_eq_true, decide_eq_true_eq, beq_iff_eq,
    Bool.not_eq_true', List.isEmpty_iff]
  constructor
  · rintro ⟨⟨⟨⟨isFile, nlookup⟩, clean⟩, noDeletes⟩, linked⟩
    exact ⟨isFile, nlookup, clean, noDeletes, linked⟩
  · intro unreferenced
    exact ⟨⟨⟨⟨unreferenced.isFile, unreferenced.nlookup⟩, unreferenced.clean⟩,
      unreferenced.noDeletes⟩, unreferenced.linked⟩

theorem isEvictable_iff {entry : InodeEntry} :
    entry.isEvictable = true ↔
      entry.isUnreferenced = true ∧ entry.eviction.openHandles = 0 := by
  simp only [isEvictable, isUnreferenced, Bool.and_eq_true, beq_iff_eq]
  constructor
  · rintro ⟨⟨⟨⟨⟨isFile, nlookup⟩, closed⟩, clean⟩, noDeletes⟩, linked⟩
    exact ⟨⟨⟨⟨⟨isFile, nlookup⟩, clean⟩, noDeletes⟩, linked⟩, closed⟩
  · rintro ⟨⟨⟨⟨⟨isFile, nlookup⟩, clean⟩, noDeletes⟩, linked⟩, closed⟩
    exact ⟨⟨⟨⟨⟨isFile, nlookup⟩, closed⟩, clean⟩, noDeletes⟩, linked⟩

theorem SameCounts.refl (entry : InodeEntry) : entry.SameCounts entry :=
  ⟨rfl, Nat.le_refl _, rfl, rfl, rfl⟩

theorem SameCounts.trans {first second third : InodeEntry}
    (left : first.SameCounts second) (right : second.SameCounts third) :
    first.SameCounts third :=
  ⟨right.inode.trans left.inode, left.links.trans right.links,
    right.nlookup.trans left.nlookup,
    right.openHandles.trans left.openHandles,
    right.pending.trans left.pending⟩

/-- An entry that nothing refers to yet. -/
structure IsNew (entry : InodeEntry) (ino : Ino) : Prop where
  inode : entry.inode = ino
  links : 0 < entry.nlink
  nlookup : entry.eviction.nlookup = 0
  openHandles : entry.eviction.openHandles = 0
  pending : entry.eviction.evictPending = false

theorem IsNew.changed {entry after : InodeEntry} {ino : Ino}
    (isNew : entry.IsNew ino) (same : entry.SameCounts after) :
    after.IsNew ino :=
  ⟨same.inode.trans isNew.inode, Nat.lt_of_lt_of_le isNew.links same.links,
    same.nlookup.trans isNew.nlookup,
    same.openHandles.trans isNew.openHandles,
    same.pending.trans isNew.pending⟩

theorem isNew_new (inode parent : Ino) (name : Name) (fullPath : Path)
    (kind : InodeKind) (size : Nat) (mtime : Time) (xetHash : Option Hash)
    (mode uid gid : Nat) (now : Time) (touchSeq : Nat) :
    (new inode parent name fullPath kind size mtime xetHash mode uid gid now
      touchSeq).IsNew inode := by
  refine ⟨rfl, ?_, rfl, rfl, rfl⟩
  cases kind <;> simp [new]

theorem sameCounts_removeChildByIno (entry : InodeEntry) (ino : Ino) :
    entry.SameCounts (entry.removeChildByIno ino) := by
  unfold removeChildByIno
  split
  · exact .refl entry
  · exact ⟨rfl, Nat.le_refl _, rfl, rfl, rfl⟩

theorem sameCounts_applyCommit (entry : InodeEntry) (hash : Hash)
    (size generation : Nat) (now : Time) :
    entry.SameCounts (entry.applyCommit hash size generation now) := by
  by_cases same : entry.dirtyGeneration = generation
  · rw [applyCommit_of_eq same]
    exact ⟨rfl, Nat.le_refl _, rfl, rfl, rfl⟩
  · rw [applyCommit_of_ne same]
    exact ⟨rfl, Nat.le_refl _, rfl, rfl, rfl⟩

end InodeEntry

namespace InodeTable

/-! ## Changes and insertions -/

/-- No inode goes, and each keeps its counts or is new. -/
structure Extends (before after : InodeTable) : Prop where
  source : ∀ {ino : Ino} {entry : InodeEntry}, after.get ino = some entry →
    (∃ earlier, before.get ino = some earlier ∧ earlier.SameCounts entry) ∨
      (before.nextInode ≤ ino ∧ ino < after.nextInode ∧ entry.IsNew ino)
  stays : ∀ {ino : Ino}, (before.get ino).isSome = true →
    (after.get ino).isSome = true
  next : before.nextInode ≤ after.nextInode
  paths : ∀ {path : Path} {ino : Ino}, after.pathToInode path = some ino →
    before.pathToInode path = some ino ∨ ino < after.nextInode

theorem Extends.refl (table : InodeTable) : table.Extends table :=
  ⟨fun found => Or.inl ⟨_, found, .refl _⟩, fun found => found,
    Nat.le_refl _, Or.inl⟩

theorem Extends.trans {first second third : InodeTable}
    (left : first.Extends second) (right : second.Extends third) :
    first.Extends third := by
  refine ⟨?_, fun found => right.stays (left.stays found),
    left.next.trans right.next, ?_⟩
  · intro ino entry found
    rcases right.source found with ⟨middle, foundMiddle, same⟩ |
      ⟨fresh, inside, isNew⟩
    · rcases left.source foundMiddle with ⟨earlier, foundEarlier, sameEarlier⟩ |
        ⟨fresh, inside, isNew⟩
      · exact Or.inl ⟨earlier, foundEarlier, sameEarlier.trans same⟩
      · exact Or.inr ⟨fresh, Nat.lt_of_lt_of_le inside right.next,
          isNew.changed same⟩
    · exact Or.inr ⟨left.next.trans fresh, inside, isNew⟩
  · intro path ino mapped
    rcases right.paths mapped with earlier | inside
    · rcases left.paths earlier with first | inside
      · exact Or.inl first
      · exact Or.inr (Nat.lt_of_lt_of_le inside right.next)
    · exact Or.inr inside

theorem extends_put {table : InodeTable} {ino : Ino} {entry after : InodeEntry}
    (found : table.get ino = some entry) (same : entry.SameCounts after) :
    table.Extends (table.put ino after) := by
  refine ⟨?_, ?_, Nat.le_refl _, Or.inl⟩
  · intro other otherEntry got
    rw [get_put] at got
    split at got <;> rename_i here
    · subst here
      obtain rfl := Option.some.inj got
      exact Or.inl ⟨entry, found, same⟩
    · exact Or.inl ⟨otherEntry, got, .refl _⟩
  · intro other present
    rw [get_put]
    split
    · rfl
    · exact present

theorem extends_modify (table : InodeTable) (ino : Ino)
    {change : InodeEntry → InodeEntry}
    (same : ∀ entry : InodeEntry, entry.SameCounts (change entry)) :
    table.Extends (table.modify ino change) := by
  cases found : table.get ino with
  | none =>
      rw [modify_of_none found]
      exact .refl table
  | some entry =>
      rw [modify_of_some found]
      exact extends_put found (same entry)

theorem extends_insert (table : InodeTable) (parent : Ino) (name : Name)
    (fullPath : Path) (kind : InodeKind) (size : Nat) (mtime : Time)
    (xetHash : Option Hash) (mode uid gid : Nat) (now : Time) :
    table.Extends (table.insert parent name fullPath kind size mtime xetHash
      mode uid gid now).2 := by
  unfold insert
  split
  · apply extends_modify
    exact fun entry => ⟨rfl, Nat.le_refl _, rfl, rfl, rfl⟩
  · refine Extends.trans ⟨?_, ?_, Nat.le_succ _, ?_⟩
      (extends_modify _ parent ?_)
    · intro ino entry found
      by_cases here : ino = table.nextInode
      · subst here
        simp only [get, AList.lookup_insert, Option.some.injEq] at found
        subst found
        exact Or.inr ⟨Nat.le_refl _, Nat.lt_succ_self _,
          InodeEntry.isNew_new _ _ _ _ _ _ _ _ _ _ _ _ _⟩
      · simp only [get, AList.lookup_insert_ne here] at found
        exact Or.inl ⟨entry, found, .refl _⟩
    · intro ino present
      by_cases here : ino = table.nextInode
      · subst here
        simp only [get, AList.lookup_insert, Option.isSome_some]
      · simpa only [get, AList.lookup_insert_ne here] using present
    · intro path ino mapped
      by_cases here : path = fullPath
      · subst here
        simp only [Function.update_self, Option.some.injEq] at mapped
        subst mapped
        exact Or.inr (Nat.lt_succ_self _)
      · simp only [Function.update_of_ne here] at mapped
        exact Or.inl mapped
    · intro entry
      refine ⟨rfl, ?_, rfl, rfl, rfl⟩
      dsimp only [InodeEntry.addChild]
      split <;> omega

theorem extends_touch (table : InodeTable) (ino : Ino) :
    table.Extends (table.touch ino) := by
  unfold touch
  split
  · exact .refl table
  · have same : table.Extends (table.modifyEviction ino fun state =>
        { state with lastTouched := table.touchCounter }) := by
      apply extends_modify
      exact fun entry => ⟨rfl, Nat.le_refl _, rfl, rfl, rfl⟩
    exact ⟨same.source, same.stays, same.next, same.paths⟩

/-! ## Evictions -/

/-- The inodes that `gone` names leave the table, and the others keep their
counts. -/
structure Evicts (gone : Ino → Prop) (before after : InodeTable) : Prop where
  source : ∀ {ino : Ino} {entry : InodeEntry}, after.get ino = some entry →
    ∃ earlier, before.get ino = some earlier ∧ earlier.SameCounts entry
  stays : ∀ {ino : Ino}, ¬ gone ino → (before.get ino).isSome = true →
    (after.get ino).isSome = true
  next : after.nextInode = before.nextInode
  paths : ∀ {path : Path} {ino : Ino}, after.pathToInode path = some ino →
    before.pathToInode path = some ino

theorem Evicts.of_none (table : InodeTable) (gone : Ino → Prop) :
    table.Evicts gone table :=
  ⟨fun found => ⟨_, found, .refl _⟩, fun _ present => present, rfl,
    fun mapped => mapped⟩

theorem evictIfSafe_of_unreferenced {table : InodeTable} {ino : Ino}
    {entry : InodeEntry} (found : table.get ino = some entry)
    (unreferenced : entry.isUnreferenced = true) :
    (table.evictIfSafe ino).2 =
      ((table.erase ino).removePath entry.fullPath).modify entry.parent
        fun parentEntry =>
          { parentEntry.removeChildByIno ino with childrenLoadedAt := none } := by
  unfold InodeEntry.isUnreferenced at unreferenced
  simp only [evictIfSafe, found, unreferenced, if_true]

theorem evictIfSafe_of_referenced {table : InodeTable} {ino : Ino}
    (referenced : (table.get ino).any (·.isUnreferenced) = false) :
    (table.evictIfSafe ino).2 = table := by
  unfold evictIfSafe
  split
  · rfl
  · rename_i found
    rw [found] at referenced
    simp only [Option.any_some, InodeEntry.isUnreferenced] at referenced
    rw [if_neg (by simp [referenced])]

theorem evicts_evictIfSafe (table : InodeTable) (ino : Ino) :
    table.Evicts (fun other => other = ino ∧
        (table.get ino).any (·.isUnreferenced) = true)
      (table.evictIfSafe ino).2 := by
  cases unreferenced : (table.get ino).any (·.isUnreferenced) with
  | false =>
      rw [evictIfSafe_of_referenced unreferenced]
      exact .of_none table _
  | true =>
      cases found : table.get ino with
      | none =>
          rw [found] at unreferenced
          cases unreferenced
      | some entry =>
          rw [found] at unreferenced
          rw [evictIfSafe_of_unreferenced found unreferenced]
          have unlisted : ((table.erase ino).removePath
              entry.fullPath).Extends (((table.erase ino).removePath
                entry.fullPath).modify entry.parent fun parentEntry =>
                  { parentEntry.removeChildByIno ino with
                    childrenLoadedAt := none }) := by
            apply extends_modify
            intro parentEntry
            have same := parentEntry.sameCounts_removeChildByIno ino
            exact ⟨same.inode, same.links, same.nlookup, same.openHandles,
              same.pending⟩
          refine ⟨?_, ?_, nextInode_modify _ _ _, ?_⟩
          · intro other otherEntry got
            rcases unlisted.source got with ⟨earlier, erased, same⟩ |
              ⟨fresh, inside, _⟩
            · rw [get_removePath, get_erase] at erased
              split at erased
              · cases erased
              · exact ⟨earlier, erased, same⟩
            · rw [nextInode_modify] at inside
              exact absurd fresh (Nat.not_le_of_lt inside)
          · intro other notGone present
            apply unlisted.stays
            rw [get_removePath, get_erase, if_neg]
            · exact present
            · exact fun same => notGone ⟨same, rfl⟩
          · intro path other mapped
            rw [pathToInode_modify] at mapped
            simp only [removePath, Function.update_apply] at mapped
            split at mapped
            · cases mapped
            · exact mapped

theorem sameCounts_withoutEvicted (evicted : List InodeEntry) (ino : Ino)
    (entry : InodeEntry) :
    entry.SameCounts (withoutEvicted evicted ino entry) :=
  ⟨rfl, Nat.le_refl _, rfl, rfl, rfl⟩

theorem evicts_evictBatchIfSafe (table : InodeTable) (inos : List Ino) :
    table.Evicts (· ∈ (table.evictedEntries inos).map (·.inode))
      (table.evictBatchIfSafe inos).2 := by
  refine ⟨?_, ?_, ?_, ?_⟩
  · intro ino entry found
    rw [get_evictBatchIfSafe] at found
    split at found
    · cases found
    · obtain ⟨earlier, isEarlier, rfl⟩ := Option.map_eq_some_iff.mp found
      exact ⟨earlier, isEarlier, sameCounts_withoutEvicted _ _ _⟩
  · intro ino stays present
    rw [get_evictBatchIfSafe, if_neg stays, Option.isSome_map]
    exact present
  · simp only [evictBatchIfSafe, nextInode_foldl_retainChildren,
      nextInode_foldl_dropEvicted]
  · intro path ino mapped
    rw [pathToInode_evictBatchIfSafe] at mapped
    split at mapped
    · cases mapped
    · exact mapped

/-! ## The last close -/

theorem removeOrphan_of_linked {table : InodeTable} {ino : Ino}
    (linked : ∀ entry, table.get ino = some entry → 0 < entry.nlink) :
    table.removeOrphan ino = table := by
  unfold removeOrphan
  split
  · rename_i entry found
    rw [if_neg (Nat.ne_of_gt (linked entry found))]
  · rfl

/-- Without an orphan, the last close takes the flag, and evicts when it was
set. -/
theorem reapOnLastRelease_table {table : InodeTable} {overlay : Bool}
    {ino : Ino} (linked : ∀ entry, table.get ino = some entry →
      0 < entry.nlink) :
    (table.reapOnLastRelease overlay ino).table =
      if (table.get ino).any (·.eviction.evictPending) then
        ((table.takeEvictPending ino).2.evictIfSafe ino).2
      else (table.takeEvictPending ino).2 := by
  simp only [reapOnLastRelease, removeOrphan_of_linked linked, evictPending,
    takeEvictPending]
  split <;> rfl

end InodeTable

end HfMount.Inode
