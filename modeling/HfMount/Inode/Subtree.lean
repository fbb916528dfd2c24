import HfMount.Inode.Treelike

/-!
# Walks over a subtree

In a well-formed table every walk that follows children visits exactly the
inodes whose path lies within that of its start, and the length of the paths
bounds its depth.  Removing an inode with all its descendants and rewriting
the paths of a subtree are folds over such a walk.
-/

namespace HfMount.Inode

open SlashPath

namespace InodeTable

namespace WellFormed

variable {table : InodeTable}

theorem lists (wf : table.WellFormed) {parent child : Ino}
    {parentEntry : InodeEntry} (found : table.get parent = some parentEntry)
    (lists : table.Lists parent child) :
    ∃ name entry, ValidName name ∧ ⟨child, name⟩ ∈ parentEntry.children ∧
      table.IsChild parent parentEntry ⟨child, name⟩ entry := by
  obtain ⟨other, name, foundOther, listed⟩ := lists
  obtain rfl := Option.some.inj (foundOther.symm.trans found)
  obtain ⟨entry, isChild⟩ := wf.child found listed
  exact ⟨name, entry, (wf.directory found listed).2.2, listed, isChild⟩

/-- What is below an inode is live and has a longer path, unless it is the
inode itself. -/
theorem below (wf : table.WellFormed) {upper lower : Ino}
    {upperEntry : InodeEntry} (found : table.get upper = some upperEntry)
    (below : table.Below upper lower) :
    ∃ entry, table.get lower = some entry ∧
      (lower = upper ∨ (entry.isLive = true ∧ lower ≠ rootInode ∧
        upperEntry.fullPath.length < entry.fullPath.length)) := by
  induction below with
  | refl => exact ⟨upperEntry, found, Or.inl rfl⟩
  | tail _ step ih =>
      obtain ⟨middleEntry, foundMiddle, middle⟩ := ih
      obtain ⟨name, entry, valid, listed, isChild⟩ :=
        wf.lists foundMiddle step
      have longer := length_lt_childPath valid middleEntry.fullPath
      rw [← isChild.fullPath] at longer
      refine ⟨entry, isChild.found, Or.inr ⟨isChild.live,
        (wf.directory foundMiddle listed).2.1, ?_⟩⟩
      rcases middle with rfl | ⟨_, _, above⟩
      · obtain rfl := Option.some.inj (foundMiddle.symm.trans found)
        exact longer
      · exact Nat.lt_trans above longer

/-- The path of a child is longer than that of its directory. -/
theorem treelike (wf : table.WellFormed) : table.Treelike := by
  constructor
  · exact fun found => (wf.key found).2
  · exact fun found => (wf.indexed found).nodup
  · exact fun found listed => (wf.directory found listed).1
  · intro ino entry child found listed
    obtain ⟨childEntry, isChild⟩ := wf.child found listed
    refine ⟨childEntry, isChild.found, isChild.parent, fun _ => ?_⟩
    rw [isChild.fullPath]
    exact length_lt_childPath (wf.directory found listed).2.2 _

/-- A child is below an inode when it is that inode or its parent is below. -/
theorem below_child_iff (wf : table.WellFormed) {upper parent : Ino}
    {parentEntry : InodeEntry} {child : DirChild}
    (found : table.get parent = some parentEntry)
    (listed : child ∈ parentEntry.children) :
    table.Below upper child.ino ↔
      child.ino = upper ∨ table.Below upper parent :=
  wf.treelike.below_child_iff ⟨parentEntry, child.name, found, listed⟩

theorem lists_parent (wf : table.WellFormed) {ino : Ino} {entry : InodeEntry}
    (found : table.get ino = some entry) (notRoot : ino ≠ rootInode)
    (live : entry.isLive = true) : table.Lists entry.parent ino := by
  obtain ⟨parentEntry, foundParent, listed⟩ := wf.attached found notRoot live
  exact ⟨parentEntry, entry.name, foundParent, listed⟩

/-- The parent of a live inode is not below it. -/
theorem parent_not_below (wf : table.WellFormed) {ino : Ino}
    {entry : InodeEntry} (found : table.get ino = some entry)
    (notRoot : ino ≠ rootInode) (live : entry.isLive = true) :
    ¬ table.Below ino entry.parent :=
  wf.treelike.parent_not_below (wf.lists_parent found notRoot live)

end WellFormed

/-! ## Removing a subtree -/

/-- Removing an inode takes out exactly what is below it. -/
theorem pruned_remove {table : InodeTable} (wf : table.WellFormed) {ino : Ino}
    {entry : InodeEntry} (found : table.get ino = some entry)
    (notRoot : ino ≠ rootInode) (live : entry.isLive = true) :
    table.Pruned (table.remove ino) (table.Below ino) := by
  have tree := wf.treelike
  have listed := wf.lists_parent found notRoot live
  have parentOutside := tree.parent_not_below listed
  obtain ⟨parentEntry, _, foundParent, _⟩ := id listed
  obtain ⟨inos, detached, removed, members, nextInode, mapping, _, _,
    elsewhere⟩ := tree.remove_eq found foundParent listed
  have cutsOff := tree.cutsOff listed
  refine ⟨?_, ?_, ?_, ?_, ?_, cutsOff.nextInode⟩
  · intro below
    obtain ⟨_, _, same | ⟨_, notRoot', _⟩⟩ := wf.below found below
    · exact notRoot same.symm
    · exact notRoot' rfl
  · intro other otherEntry child below foundOther inChildren
    exact below.tail ⟨otherEntry, child.name, foundOther, inChildren⟩
  · intro other otherEntry notBelow foundOther
    obtain ⟨kept, got, place, content, indexed, _, children⟩ :=
      cutsOff.entry tree listed foundOther notBelow
    exact ⟨kept, got, place, content, indexed (wf.indexed foundOther), children⟩
  · intro other otherEntry got
    obtain ⟨notBelow, entry, found⟩ := cutsOff.source listed got
    exact ⟨entry, found, fun below => absurd below notBelow⟩
  · intro path target
    -- The dropped paths are those of the inodes below.
    have dropped : (∃ lower ∈ inos,
          (detached.get lower).any (·.fullPath = path) = true) ↔
        ∃ lower lowerEntry, table.Below ino lower ∧ lower ≠ ino ∧
          table.get lower = some lowerEntry ∧ lowerEntry.fullPath = path := by
      constructor
      · rintro ⟨lower, member, hit⟩
        obtain ⟨below, proper⟩ := (members lower).mp member
        rw [elsewhere lower proper fun isParent =>
          parentOutside (isParent ▸ below)] at hit
        cases foundLower : table.get lower with
        | none =>
            rw [foundLower] at hit
            cases hit
        | some lowerEntry =>
            rw [foundLower] at hit
            exact ⟨lower, lowerEntry, below, proper, foundLower,
              by simpa using hit⟩
      · rintro ⟨lower, lowerEntry, below, proper, foundLower, samePath⟩
        refine ⟨lower, (members lower).mpr ⟨below, proper⟩, ?_⟩
        rw [elsewhere lower proper fun isParent =>
          parentOutside (isParent ▸ below), foundLower]
        simpa using samePath
    rw [removed, pathToInode_foldl_dropEntry, mapping]
    constructor
    · intro mapped
      split at mapped <;> rename_i notDropped
      · cases mapped
      rw [dropped] at notDropped
      by_cases here : path = entry.fullPath
      · rw [here, Function.update_self] at mapped
        cases mapped
      rw [Function.update_of_ne here] at mapped
      refine ⟨mapped, fun below => notDropped ?_⟩
      obtain ⟨targetEntry, foundTarget, _, targetPath⟩ := wf.path.mp mapped
      refine ⟨target, targetEntry, below, ?_, foundTarget, targetPath⟩
      rintro rfl
      obtain rfl := Option.some.inj (foundTarget.symm.trans found)
      exact here targetPath.symm
    · rintro ⟨mapped, notBelow⟩
      obtain ⟨targetEntry, foundTarget, targetLive, targetPath⟩ :=
        wf.path.mp mapped
      have other : path ≠ entry.fullPath := by
        rintro rfl
        have same := wf.unique foundTarget found targetLive live targetPath
        exact notBelow (same ▸ .refl)
      rw [if_neg, Function.update_of_ne other, mapped]
      rw [dropped]
      rintro ⟨lower, lowerEntry, below, proper, foundLower, lowerPath⟩
      obtain ⟨_, foundAgain, same | ⟨lowerLive, _⟩⟩ := wf.below found below
      · exact proper same
      · obtain rfl := Option.some.inj (foundAgain.symm.trans foundLower)
        have same := wf.unique foundTarget foundLower targetLive lowerLive
          (targetPath.trans lowerPath.symm)
        exact notBelow (same ▸ below)

/-! ## Removing one file -/

/-- A file has no children, so it is alone below itself. -/
theorem WellFormed.children_of_file {table : InodeTable}
    (wf : table.WellFormed) {ino : Ino} {entry : InodeEntry}
    (found : table.get ino = some entry) (file : entry.kind ≠ .directory) :
    entry.children = [] := by
  rw [List.eq_nil_iff_forall_not_mem]
  exact fun child listed => file (wf.directory found listed).1

theorem WellFormed.below_file {table : InodeTable} (wf : table.WellFormed)
    {ino lower : Ino} {entry : InodeEntry} (found : table.get ino = some entry)
    (file : entry.kind ≠ .directory) : table.Below ino lower ↔ lower = ino := by
  constructor
  · intro below
    rcases Relation.ReflTransGen.cases_head below with same | ⟨child, step, _⟩
    · exact same.symm
    · obtain ⟨name, _, _, listed, _⟩ := wf.lists found step
      rw [wf.children_of_file found file] at listed
      cases listed
  · rintro rfl
    exact .refl

/-- A file has nothing below it to remove. -/
theorem remove_of_leaf {table : InodeTable} {ino : Ino} {entry : InodeEntry}
    (found : table.get ino = some entry) (leaf : entry.children = []) :
    table.remove ino =
      ((table.erase ino).removePath entry.fullPath).detachFromParent
        entry.parent ino entry.kind := by
  simp only [remove, dropEntry, found, leaf,
    List.reverse_nil, List.map_nil, List.flatMap_nil, List.foldl_nil]

/-- Unlinking a file under its name leaves an orphan. -/
theorem unlinkOne_eq {table : InodeTable} (wf : table.WellFormed)
    {parent : Ino} {name : Name} {entry : InodeEntry}
    (looked : table.lookupChild parent name = some entry)
    (file : entry.kind ≠ .directory) (now : Time) :
    ∃ parentEntry, table.get parent = some parentEntry ∧
      table.get entry.inode = some entry ∧ entry.inode ≠ parent ∧
      ⟨entry.inode, name⟩ ∈ parentEntry.children ∧
      entry.fullPath = childPath parentEntry.fullPath name ∧
      table.unlinkOne parent name now = (some true,
        ((table.modify parent (·.removeChildByName name)).removePath
          entry.fullPath).put entry.inode
            { entry with
              nlink := 0
              ctime := now }) := by
  obtain ⟨parentEntry, found, listed, isChild⟩ := wf.lookupChild.mp looked
  have directory := (wf.directory found listed).1
  have distinct : entry.inode ≠ parent := by
    rintro rfl
    have same : table.get entry.inode = some entry := isChild.found
    rw [found] at same
    obtain rfl := Option.some.inj same
    exact file directory
  have atName := ((wf.indexed found).index name entry.inode).mpr listed
  have links := wf.links isChild.found file
  have noLinks : entry.nlink - 1 = 0 := by omega
  refine ⟨parentEntry, found, isChild.found, distinct, listed, isChild.fullPath,
    ?_⟩
  have kept : ((table.modify parent (·.removeChildByName name)).removePath
      (childPath parentEntry.fullPath name)).get entry.inode = some entry := by
    rw [get_removePath, get_modify_of_ne _ distinct]
    exact isChild.found
  simp only [unlinkOne, found, atName, kept, noLinks, decide_true,
    isChild.fullPath]

theorem pruned_unlinkOne {table : InodeTable} (wf : table.WellFormed)
    {parent : Ino} {name : Name} {entry : InodeEntry}
    (looked : table.lookupChild parent name = some entry)
    (file : entry.kind ≠ .directory) (now : Time) :
    table.Pruned (table.unlinkOne parent name now).2 (· = entry.inode) := by
  obtain ⟨parentEntry, found, foundEntry, distinct, listed, fullPath,
    unlinked⟩ := unlinkOne_eq wf looked file now
  obtain ⟨directory, notRoot, _⟩ := wf.directory found listed
  have live : entry.isLive = true := by
    obtain ⟨other, isChild⟩ := wf.child found listed
    obtain rfl := Option.some.inj (isChild.found.symm.trans foundEntry)
    exact isChild.live
  have noChildren := wf.children_of_file foundEntry file
  rw [unlinked]
  refine ⟨notRoot.symm, ?_, ?_, ?_, ?_, ?_⟩
  · rintro ino other child rfl foundOther inChildren
    obtain rfl := Option.some.inj (foundOther.symm.trans foundEntry)
    rw [noChildren] at inChildren
    cases inChildren
  · intro ino other notGone foundOther
    rw [get_put_of_ne _ notGone, get_removePath, get_modify]
    split <;> rename_i isParent
    · subst isParent
      obtain rfl := Option.some.inj (foundOther.symm.trans found)
      refine ⟨_, by rw [foundOther]; rfl, ?_, ?_,
        (wf.indexed found).removeChildByName name, ?_⟩
      · unfold InodeEntry.removeChildByName
        split <;> exact ⟨rfl, rfl, rfl, rfl, rfl, fun _ => rfl⟩
      · unfold InodeEntry.removeChildByName
        split <;> exact ⟨rfl, rfl, rfl, rfl, rfl⟩
      · intro child
        rw [InodeEntry.mem_removeChildByName (wf.indexed found)]
        refine and_congr_right fun inChildren => not_congr ?_
        constructor
        · intro sameName
          obtain ⟨childIno, childName⟩ := child
          obtain rfl : childName = name := sameName
          exact (wf.indexed found).ino_eq inChildren listed
        · intro sameIno
          obtain ⟨childIno, childName⟩ := child
          obtain rfl : childIno = entry.inode := sameIno
          exact (wf.indexed found).name_eq inChildren listed
    · refine ⟨other, foundOther, .refl _, .refl _, wf.indexed foundOther, ?_⟩
      intro child
      refine (and_iff_left_of_imp fun inChildren same => ?_).symm
      obtain ⟨childEntry, isChild⟩ := wf.child foundOther inChildren
      have foundChild := isChild.found
      rw [same, foundEntry] at foundChild
      obtain rfl := Option.some.inj foundChild
      obtain ⟨entryAgain, isChildAgain⟩ := wf.child found listed
      have foundAgain : table.get entry.inode = some entryAgain :=
        isChildAgain.found
      obtain rfl := Option.some.inj (foundEntry.symm.trans foundAgain)
      exact isParent (isChild.parent.symm.trans isChildAgain.parent)
  · intro ino other got
    rw [get_put] at got
    split at got <;> rename_i here
    · subst here
      obtain rfl := Option.some.inj got
      refine ⟨entry, foundEntry, fun _ => ⟨?_, ?_, ?_, ?_⟩⟩
      · simp [InodeEntry.isLive, file]
      · rfl
      · exact ⟨(wf.indexed foundEntry).nodup, (wf.indexed foundEntry).index⟩
      · exact noChildren
    · rw [get_removePath, get_modify] at got
      split at got <;> rename_i isParent
      · subst isParent
        exact ⟨parentEntry, found, fun gone => absurd gone here⟩
      · exact ⟨other, got, fun gone => absurd gone here⟩
  · intro path ino
    have own : table.pathToInode entry.fullPath = some entry.inode :=
      wf.path.mpr ⟨entry, foundEntry, live, rfl⟩
    simp only [pathToInode_put, removePath, pathToInode_modify]
    by_cases here : path = entry.fullPath
    · subst here
      rw [Function.update_self, own]
      constructor
      · intro absent
        cases absent
      · rintro ⟨same, different⟩
        exact absurd (Option.some.inj same).symm different
    · rw [Function.update_of_ne here]
      refine (and_iff_left_of_imp fun mapped same => ?_).symm
      obtain ⟨other, foundOther, _, otherPath⟩ := wf.path.mp mapped
      rw [same, foundEntry] at foundOther
      obtain rfl := Option.some.inj foundOther
      exact here otherPath.symm
  · exact nextInode_modify _ _ _

/-- An inode without links is in no directory and at no path. -/
theorem pruned_removeOrphan {table : InodeTable} (wf : table.WellFormed)
    {ino : Ino} {entry : InodeEntry} (found : table.get ino = some entry)
    (file : entry.kind ≠ .directory) (orphan : entry.nlink = 0) :
    table.removeOrphan ino = table.erase ino ∧
      table.Pruned (table.removeOrphan ino) (· = ino) := by
  have dead : entry.isLive = false := by
    simp [InodeEntry.isLive, file, orphan]
  have unmapped : ∀ path, table.pathToInode path ≠ some ino := by
    intro path mapped
    obtain ⟨other, foundOther, live, _⟩ := wf.path.mp mapped
    obtain rfl := Option.some.inj (foundOther.symm.trans found)
    rw [dead] at live
    cases live
  have erased : table.removeOrphan ino = table.erase ino := by
    simp only [removeOrphan, found, orphan, if_true, unmapped, if_false]
  refine ⟨erased, ?_⟩
  rw [erased]
  refine ⟨?_, ?_, ?_, ?_, ?_, rfl⟩
  · rintro rfl
    obtain ⟨root, foundRoot, directory, _⟩ := wf.root
    obtain rfl := Option.some.inj (foundRoot.symm.trans found)
    exact file directory
  · rintro other otherEntry child rfl foundOther inChildren
    obtain rfl := Option.some.inj (foundOther.symm.trans found)
    rw [wf.children_of_file found file] at inChildren
    cases inChildren
  · intro other otherEntry notGone foundOther
    refine ⟨otherEntry, ?_, .refl _, .refl _, wf.indexed foundOther, ?_⟩
    · rw [get_erase, if_neg notGone, foundOther]
    · intro child
      refine (and_iff_left_of_imp fun inChildren same => ?_).symm
      obtain ⟨childEntry, isChild⟩ := wf.child foundOther inChildren
      have foundChild := isChild.found
      rw [same, found] at foundChild
      obtain rfl := Option.some.inj foundChild
      rw [isChild.live] at dead
      cases dead
  · intro other otherEntry got
    rw [get_erase] at got
    split at got <;> rename_i here
    · cases got
    · exact ⟨otherEntry, got, fun gone => absurd gone here⟩
  · intro path target
    refine (and_iff_left_of_imp fun mapped same => ?_).symm
    exact unmapped path (same ▸ mapped)

/-- Every live inode is below the root. -/
theorem WellFormed.below_root {table : InodeTable} (wf : table.WellFormed)
    {ino : Ino} {entry : InodeEntry} (found : table.get ino = some entry)
    (live : entry.isLive = true) : table.Below rootInode ino := by
  obtain ⟨bound, short⟩ : ∃ bound, entry.fullPath.length ≤ bound :=
    ⟨_, Nat.le_refl _⟩
  -- The path of the parent is shorter.
  induction bound generalizing ino entry with
  | zero =>
      by_cases isRoot : ino = rootInode
      · exact isRoot ▸ .refl
      · exact absurd (List.length_eq_zero_iff.mp (Nat.le_zero.mp short))
          (wf.path_ne_nil found isRoot live)
  | succ bound ih =>
      by_cases isRoot : ino = rootInode
      · exact isRoot ▸ .refl
      obtain ⟨parentEntry, foundParent, directory, valid, listed, fullPath⟩ :=
        wf.parent found isRoot live
      have shorter := length_lt_childPath valid parentEntry.fullPath
      rw [← fullPath] at shorter
      have above := ih foundParent (InodeEntry.isLive_of_directory directory)
        (by omega)
      exact above.tail ⟨parentEntry, entry.name, foundParent, listed⟩

/-! ## Removals that are no unlinks -/

theorem WellFormed.ne_root_of_file {table : InodeTable}
    (wf : table.WellFormed) {ino : Ino} {entry : InodeEntry}
    (found : table.get ino = some entry) (file : entry.kind ≠ .directory) :
    ino ≠ rootInode := by
  rintro rfl
  obtain ⟨root, foundRoot, directory, _⟩ := wf.root
  obtain rfl := Option.some.inj (foundRoot.symm.trans found)
  exact file directory

/-- Removing an inode that is in no directory and at no path. -/
theorem corresponding_remove_orphan {table : InodeTable}
    (wf : table.WellFormed) {ino : Ino} {entry : InodeEntry}
    (found : table.get ino = some entry) (file : entry.kind ≠ .directory)
    (dead : entry.isLive = false)
    (free : table.pathToInode entry.fullPath = none) :
    Corresponding InodeEntry.SameLinks (table.erase ino)
      (table.remove ino) := by
  have samePath : (table.erase ino).removePath entry.fullPath =
      table.erase ino := by
    unfold removePath
    rw [pathToInode_erase, Function.update_eq_self_iff.mpr free.symm]
    rfl
  rw [remove_of_leaf found (wf.children_of_file found file), samePath]
  cases foundParent : (table.erase ino).get entry.parent with
  | none =>
      unfold detachFromParent
      rw [modify_of_none foundParent]
      exact .refl .refl _
  | some parentEntry =>
      unfold detachFromParent
      rw [modify_of_some foundParent]
      apply corresponding_put .refl foundParent
      have notListed : parentEntry.children.find? (·.ino == ino) = none := by
        rw [List.find?_eq_none]
        intro child listed same
        rw [get_erase] at foundParent
        split at foundParent
        · cases foundParent
        obtain ⟨childEntry, isChild⟩ := wf.child foundParent listed
        have foundChild := isChild.found
        rw [show child.ino = ino by simpa using same, found] at foundChild
        obtain rfl := Option.some.inj foundChild
        rw [isChild.live] at dead
        cases dead
      have kept : parentEntry.removeChildByIno ino = parentEntry := by
        unfold InodeEntry.removeChildByIno
        rw [notListed]
      rw [kept]
      exact ⟨⟨⟨rfl, rfl, rfl, rfl, rfl, fun _ => by simp [file]⟩, rfl, rfl⟩,
        by simp [file]⟩

/-- Removing an inode whose path has not passed to another inode takes a live
inode out of the tree, or just drops the entry of an orphan. -/
theorem remove_cases {table : InodeTable} (wf : table.WellFormed) {ino : Ino}
    {entry : InodeEntry} (found : table.get ino = some entry)
    (own : ∀ target, table.pathToInode entry.fullPath = some target →
      target = ino) :
    entry.isLive = true ∨
      entry.kind ≠ .directory ∧ entry.nlink = 0 ∧
        Corresponding InodeEntry.SameLinks (table.erase ino)
          (table.remove ino) := by
  by_cases live : entry.isLive = true
  · exact Or.inl live
  have dead : entry.isLive = false := by simpa using live
  obtain ⟨file, links⟩ : entry.kind ≠ .directory ∧ entry.nlink = 0 := by
    simpa [InodeEntry.isLive] using dead
  have free : table.pathToInode entry.fullPath = none := by
    cases mapped : table.pathToInode entry.fullPath with
    | none => rfl
    | some target =>
        obtain rfl := own target mapped
        obtain ⟨other, foundOther, otherLive, _⟩ := wf.path.mp mapped
        obtain rfl := Option.some.inj (found.symm.trans foundOther)
        exact absurd otherLive live
  exact Or.inr
    ⟨file, links, corresponding_remove_orphan wf found file dead free⟩

theorem WellFormed.remove {table : InodeTable} (wf : table.WellFormed)
    {ino : Ino} {entry : InodeEntry} (found : table.get ino = some entry)
    (notRoot : ino ≠ rootInode)
    (own : ∀ target, table.pathToInode entry.fullPath = some target →
      target = ino) : (table.remove ino).WellFormed := by
  rcases remove_cases wf found own with live | ⟨file, links, same⟩
  · exact wf.pruned (pruned_remove wf found notRoot live)
  · obtain ⟨erased, pruned⟩ := pruned_removeOrphan wf found file links
    rw [erased] at pruned
    exact (wf.pruned pruned).similar same.similar

/-- An eviction is a removal after which the directory is listed again. -/
theorem evictIfSafe_eq {table : InodeTable} (wf : table.WellFormed)
    (ino : Ino) :
    (table.evictIfSafe ino).2 = table ∨ ∃ entry, table.get ino = some entry ∧
      ino ≠ rootInode ∧ entry.isLive = true ∧
      Corresponding InodeEntry.SameLinks (table.remove ino)
        (table.evictIfSafe ino).2 := by
  unfold InodeTable.evictIfSafe
  split <;> rename_i found
  · exact Or.inl rfl
  rename_i entry
  split <;> rename_i safe
  · simp only [Bool.and_eq_true, decide_eq_true_eq] at safe
    obtain ⟨⟨⟨⟨isFile, _⟩, _⟩, _⟩, links⟩ := safe
    have notDirectory : entry.kind ≠ .directory := by
      rw [isFile]
      decide
    refine Or.inr ⟨entry, found, wf.ne_root_of_file found notDirectory, ?_, ?_⟩
    · simp [InodeEntry.isLive, links]
    · rw [remove_of_leaf found (wf.children_of_file found notDirectory)]
      apply corresponding_modify_modify .refl
      intro parentEntry
      rw [isFile]
      exact .of_fields rfl
  · exact Or.inl rfl

theorem WellFormed.evictIfSafe {table : InodeTable} (wf : table.WellFormed)
    (ino : Ino) : (table.evictIfSafe ino).2.WellFormed := by
  rcases evictIfSafe_eq wf ino with same | ⟨entry, found, notRoot, live, same⟩
  · rw [same]
    exact wf
  · exact (wf.pruned (pruned_remove wf found notRoot live)).similar same.similar

end InodeTable

end HfMount.Inode
