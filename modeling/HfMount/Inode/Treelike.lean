import HfMount.Inode.WellFormed
import HfMount.Lib.Worklist

/-!
# Tables with the shape of a tree

The walks over a subtree follow the children that the entries list.  They only
rest on the shape of the table: no inode is listed twice, and a directory that
has children has a longer path than its parent.  The names and the paths of
other inodes do not matter, and neither does the path mapping, so a listing
that does not fit its directory keeps the shape as well.
-/

namespace HfMount.Inode

open SlashPath Worklist

namespace InodeTable

/-- `child` is listed in the entry of `parent`. -/
def Lists (table : InodeTable) (parent child : Ino) : Prop :=
  ∃ entry name, table.get parent = some entry ∧
    ⟨child, name⟩ ∈ entry.children

/-- `lower` is `upper` or below it. -/
abbrev Below (table : InodeTable) : Ino → Ino → Prop :=
  Relation.ReflTransGen table.Lists

theorem mem_descendants_below {table : InodeTable} {depth : Nat}
    {upper lower : Ino} (member : lower ∈ table.descendants depth upper) :
    table.Below upper lower := by
  induction depth generalizing upper with
  | zero =>
      obtain rfl := List.mem_singleton.mp member
      exact .refl
  | succ depth ih =>
      unfold descendants at member
      split at member <;> rename_i found
      · obtain rfl := List.mem_singleton.mp member
        exact .refl
      · rename_i entry
        rcases List.mem_cons.mp member with rfl | below
        · exact .refl
        · obtain ⟨child, listed, within⟩ := List.mem_flatMap.mp below
          obtain ⟨⟨_, name⟩, inChildren, rfl⟩ := List.mem_map.mp listed
          exact Relation.ReflTransGen.head
            ⟨entry, name, found, List.mem_reverse.mp inChildren⟩ (ih within)

/-- A walk only looks at the children of what it reaches. -/
theorem descendants_congr {left right : InodeTable} {depth : Nat}
    {upper : Ino}
    (same : ∀ ino, left.Below upper ino →
      (right.get ino).map (·.children) = (left.get ino).map (·.children)) :
    right.descendants depth upper = left.descendants depth upper := by
  induction depth generalizing upper with
  | zero => rfl
  | succ depth ih =>
      have here := same upper .refl
      unfold descendants
      cases foundLeft : left.get upper with
      | none =>
          rw [foundLeft] at here
          have foundRight : right.get upper = none := by
            simpa using here
          rw [foundRight]
      | some leftEntry =>
          rw [foundLeft] at here
          obtain ⟨rightEntry, foundRight, children⟩ :=
            Option.map_eq_some_iff.mp here
          rw [foundRight]
          simp only [children]
          refine congrArg (upper :: ·) (List.flatMap_congr ?_)
          intro child listed
          obtain ⟨⟨_, name⟩, inChildren, rfl⟩ := List.mem_map.mp listed
          apply ih
          intro ino below
          exact same ino (Relation.ReflTransGen.head
            ⟨leftEntry, name, foundLeft, List.mem_reverse.mp inChildren⟩ below)

/-- What the visit of an inode pushes; the last child is the new top. -/
def pushed (table : InodeTable) (ino : Ino) : List Ino :=
  (((table.get ino).map (·.children)).getD []).reverse.map (·.ino)

theorem pushed_of_get {table : InodeTable} {ino : Ino} {entry : InodeEntry}
    (found : table.get ino = some entry) :
    table.pushed ino = entry.children.reverse.map (·.ino) := by
  simp only [pushed, found, Option.map_some, Option.getD_some]

theorem pushed_of_missing {table : InodeTable} {ino : Ino}
    (missing : table.get ino = none) : table.pushed ino = [] := by
  simp only [pushed, missing, Option.map_none, Option.getD_none,
    List.reverse_nil, List.map_nil]

theorem mem_pushed {table : InodeTable} {upper lower : Ino} :
    lower ∈ table.pushed upper ↔ table.Lists upper lower := by
  cases found : table.get upper with
  | none =>
      rw [pushed_of_missing found]
      constructor
      · intro member
        cases member
      · rintro ⟨entry, name, foundEntry, _⟩
        rw [found] at foundEntry
        cases foundEntry
  | some entry =>
      rw [pushed_of_get found]
      constructor
      · intro member
        obtain ⟨⟨_, name⟩, listed, rfl⟩ := List.mem_map.mp member
        exact ⟨entry, name, found, List.mem_reverse.mp listed⟩
      · rintro ⟨again, name, foundAgain, listed⟩
        obtain rfl := Option.some.inj (found.symm.trans foundAgain)
        exact List.mem_map.mpr
          ⟨⟨lower, name⟩, List.mem_reverse.mpr listed, rfl⟩

theorem leads_iff {table : InodeTable} {upper lower : Ino} :
    Leads table.pushed upper lower ↔ table.Below upper lower := by
  have same : (fun upper lower => lower ∈ table.pushed upper) =
      table.Lists := by
    funext upper lower
    exact propext mem_pushed
  unfold Leads Below
  rw [same]

theorem descendants_succ (table : InodeTable) (depth : Nat) (ino : Ino) :
    table.descendants (depth + 1) ino =
      ino :: (table.pushed ino).flatMap (table.descendants depth) := by
  unfold descendants
  split <;> rename_i found
  · rw [pushed_of_missing found, List.flatMap_nil]
  · rw [pushed_of_get found]

theorem pushed_congr {left right : InodeTable} {ino : Ino}
    (same : (right.get ino).map (·.children) =
      (left.get ino).map (·.children)) :
    right.pushed ino = left.pushed ino := by
  unfold pushed
  rw [same]

/-- Every child is listed once, in the directory that it names as its parent;
paths get longer on the way down as long as there is something below. -/
structure Treelike (table : InodeTable) : Prop where
  given : ∀ {ino entry}, table.get ino = some entry → ino < table.nextInode
  nodup : ∀ {ino entry}, table.get ino = some entry →
    (entry.children.map (·.ino)).Nodup
  directory : ∀ {ino entry child}, table.get ino = some entry →
    child ∈ entry.children → entry.kind = .directory
  child : ∀ {ino entry child}, table.get ino = some entry →
    child ∈ entry.children →
    ∃ childEntry, table.get child.ino = some childEntry ∧
      childEntry.parent = ino ∧ (childEntry.children ≠ [] →
        entry.fullPath.length < childEntry.fullPath.length)

namespace Treelike

variable {table : InodeTable}

theorem below (tree : table.Treelike) {upper lower : Ino}
    {upperEntry : InodeEntry} (found : table.get upper = some upperEntry)
    (below : table.Below upper lower) :
    ∃ entry, table.get lower = some entry := by
  induction below with
  | refl => exact ⟨upperEntry, found⟩
  | tail _ step _ =>
      obtain ⟨middleEntry, name, foundMiddle, listed⟩ := step
      obtain ⟨entry, foundEntry, _⟩ := tree.child foundMiddle listed
      exact ⟨entry, foundEntry⟩

theorem length_lt (tree : table.Treelike) {upper lower : Ino}
    {upperEntry lowerEntry : InodeEntry}
    (found : table.get upper = some upperEntry)
    (below : table.Below upper lower) (proper : lower ≠ upper)
    (foundLower : table.get lower = some lowerEntry)
    (inner : lowerEntry.children ≠ []) :
    upperEntry.fullPath.length < lowerEntry.fullPath.length := by
  induction below generalizing lowerEntry with
  | refl => exact absurd rfl proper
  | @tail middle lower _ step ih =>
      obtain ⟨middleEntry, name, foundMiddle, listed⟩ := step
      obtain ⟨entry, foundEntry, _, longer⟩ := tree.child foundMiddle listed
      obtain rfl := Option.some.inj (foundEntry.symm.trans foundLower)
      have last := longer inner
      by_cases atUpper : middle = upper
      · subst atUpper
        obtain rfl := Option.some.inj (foundMiddle.symm.trans found)
        exact last
      · exact (ih atUpper foundMiddle (List.ne_nil_of_mem listed)).trans last

theorem forest (tree : table.Treelike) : Forest table.pushed := by
  constructor
  · intro upper
    cases found : table.get upper with
    | none =>
        rw [pushed_of_missing found]
        exact List.nodup_nil
    | some entry =>
        rw [pushed_of_get found, List.map_reverse]
        exact List.nodup_reverse.mpr (tree.nodup found)
  · intro left right lower inLeft inRight
    obtain ⟨leftEntry, leftName, foundLeft, listedLeft⟩ := mem_pushed.mp inLeft
    obtain ⟨rightEntry, rightName, foundRight, listedRight⟩ :=
      mem_pushed.mp inRight
    obtain ⟨entry, foundEntry, parent, _⟩ := tree.child foundLeft listedLeft
    obtain ⟨other, foundOther, otherParent, _⟩ :=
      tree.child foundRight listedRight
    obtain rfl := Option.some.inj (foundEntry.symm.trans foundOther)
    exact parent.symm.trans otherParent
  · intro upper lower member leads
    obtain ⟨entry, name, found, listed⟩ := mem_pushed.mp member
    obtain ⟨child, foundChild, _, longer⟩ := tree.child found listed
    have inner := List.ne_nil_of_mem listed
    by_cases same : upper = lower
    · subst same
      obtain rfl := Option.some.inj (found.symm.trans foundChild)
      exact Nat.lt_irrefl _ (longer inner)
    · have below := leads_iff.mp leads
      have up := tree.length_lt foundChild below same found inner
      rcases Relation.ReflTransGen.cases_head below with
        again | ⟨_, ⟨again, _, foundAgain, listedBelow⟩, _⟩
      · exact same again.symm
      · obtain rfl := Option.some.inj (foundChild.symm.trans foundAgain)
        exact Nat.lt_asymm up (longer (List.ne_nil_of_mem listedBelow))

/-- Above what has children the paths get longer on the way down, so the walk
of the table is whole. -/
theorem walk_of_depth (tree : table.Treelike) {depth : Nat} {ino : Ino}
    {entry : InodeEntry} (found : table.get ino = some entry)
    (enough : entry.children ≠ [] → ∀ {other : Ino} {otherEntry : InodeEntry},
      table.get other = some otherEntry →
      otherEntry.fullPath.length < depth + entry.fullPath.length) :
    Walk table.pushed [ino] (table.descendants depth ino) := by
  induction depth generalizing ino entry with
  | zero =>
      have leaf : entry.children = [] := by
        by_contra inner
        have short := enough inner found
        omega
      apply Walk.visit
      rw [pushed_of_get found, leaf]
      exact .done
  | succ depth ih =>
      rw [descendants_succ]
      apply Walk.visit
      rw [List.append_nil]
      apply Walk.flatMap
      intro child member
      obtain ⟨again, name, foundAgain, listed⟩ := mem_pushed.mp member
      obtain rfl := Option.some.inj (found.symm.trans foundAgain)
      obtain ⟨childEntry, foundChild, _, longer⟩ := tree.child found listed
      apply ih foundChild
      intro inner other otherEntry foundOther
      have short := enough (List.ne_nil_of_mem listed) foundOther
      have long := longer inner
      omega

theorem walk (tree : table.Treelike) (ino : Ino) :
    Walk table.pushed [ino] (table.descendants table.depthBound ino) := by
  cases found : table.get ino with
  | none =>
      have alone : table.descendants table.depthBound ino = [ino] := by
        unfold depthBound descendants
        rw [found]
      rw [alone]
      apply Walk.visit
      rw [pushed_of_missing found]
      exact .done
  | some entry =>
      apply tree.walk_of_depth found
      intro _ other otherEntry foundOther
      exact Nat.lt_add_right _ (path_lt_depthBound foundOther)

/-- A walk of the table visits what is below its start. -/
theorem mem_descendants_iff (tree : table.Treelike) {upper lower : Ino} :
    lower ∈ table.descendants table.depthBound upper ↔
      table.Below upper lower := by
  rw [(tree.walk upper).mem_iff, ← leads_iff]
  simp only [List.mem_singleton, exists_eq_left]

/-- The directory of a child is not below it. -/
theorem parent_not_below (tree : table.Treelike) {parent child : Ino}
    (listed : table.Lists parent child) : ¬ table.Below child parent :=
  fun below =>
    tree.forest.acyclic (mem_pushed.mpr listed) (leads_iff.mpr below)

/-- What is below a child is properly below its directory. -/
theorem below_of_child (tree : table.Treelike) {parent child lower : Ino}
    (listed : table.Lists parent child) (below : table.Below child lower) :
    table.Below parent lower ∧ lower ≠ parent := by
  refine ⟨.head listed below, ?_⟩
  rintro rfl
  exact tree.parent_not_below listed below

/-- A child is below an inode when it is that inode or its parent is below. -/
theorem below_child_iff (tree : table.Treelike) {upper parent child : Ino}
    (listed : table.Lists parent child) :
    table.Below upper child ↔ child = upper ∨ table.Below upper parent := by
  rw [← leads_iff, ← leads_iff]
  exact tree.forest.leads_child_iff (mem_pushed.mpr listed)

end Treelike

/-! ## Removing a subtree -/

theorem get_dropEntry (table : InodeTable) (ino other : Ino) :
    (table.dropEntry ino).get other =
      if other = ino then none else table.get other := by
  unfold dropEntry
  split <;> rename_i found
  · rw [get_removePath, get_erase]
  · split <;> rename_i same
    · rw [same, found]
    · rfl

theorem pathToInode_dropEntry (table : InodeTable) (ino : Ino) (path : Path) :
    (table.dropEntry ino).pathToInode path =
      if (table.get ino).any (·.fullPath = path) then none
      else table.pathToInode path := by
  unfold dropEntry
  split <;> rename_i found
  · rename_i entry
    simp only [found, Option.any_some, decide_eq_true_eq, removePath]
    by_cases here : path = entry.fullPath
    · simp [here]
    · rw [Function.update_of_ne here, if_neg (Ne.symm here)]
      rfl
  · simp [found]

@[simp] theorem nextInode_dropEntry (table : InodeTable) (ino : Ino) :
    (table.dropEntry ino).nextInode = table.nextInode := by
  unfold dropEntry
  split <;> rfl

theorem get_foldl_dropEntry (inos : List Ino) (table : InodeTable)
    (other : Ino) :
    (inos.foldl dropEntry table).get other =
      if other ∈ inos then none else table.get other := by
  induction inos generalizing table with
  | nil => simp
  | cons ino inos ih =>
      rw [List.foldl_cons, ih, get_dropEntry]
      by_cases later : other ∈ inos
      · simp [later]
      · by_cases here : other = ino <;> simp [here, later]

theorem pathToInode_foldl_dropEntry (inos : List Ino) (table : InodeTable)
    (path : Path) :
    (inos.foldl dropEntry table).pathToInode path =
      if ∃ ino ∈ inos, (table.get ino).any (·.fullPath = path) then none
      else table.pathToInode path := by
  induction inos generalizing table with
  | nil => simp
  | cons ino inos ih =>
      rw [List.foldl_cons, ih, pathToInode_dropEntry]
      by_cases here : (table.get ino).any (·.fullPath = path) = true
      · rw [if_pos here, ite_self, if_pos ⟨ino, List.mem_cons_self, here⟩]
      · rw [if_neg here]
        congr 1
        apply propext
        constructor
        · rintro ⟨other, listed, hit⟩
          rw [get_dropEntry] at hit
          split at hit
          · cases hit
          · exact ⟨other, List.mem_cons_of_mem _ listed, hit⟩
        · rintro ⟨other, listed, hit⟩
          rcases List.mem_cons.mp listed with rfl | later
          · exact absurd hit here
          · refine ⟨other, later, ?_⟩
            rw [get_dropEntry]
            split <;> rename_i same
            · rw [same] at hit
              exact absurd hit here
            · exact hit

@[simp] theorem nextInode_foldl_dropEntry (inos : List Ino)
    (table : InodeTable) :
    (inos.foldl dropEntry table).nextInode = table.nextInode := by
  induction inos generalizing table with
  | nil => rfl
  | cons ino inos ih => rw [List.foldl_cons, ih, nextInode_dropEntry]

theorem detachFromParent_path (table : InodeTable) (parent child : Ino)
    (kind : InodeKind) :
    (table.detachFromParent parent child kind).pathToInode =
      table.pathToInode :=
  pathToInode_modify _ _ _

/-- The entry of a directory that lost a child. -/
def shrunkParent (parentEntry : InodeEntry) (child : Ino) (kind : InodeKind) :
    InodeEntry :=
  { parentEntry.removeChildByIno child with
    nlink := if kind = .directory then
        (parentEntry.removeChildByIno child).nlink - 1
      else (parentEntry.removeChildByIno child).nlink }

theorem sameContent_shrunkParent (parentEntry : InodeEntry) (child : Ino)
    (kind : InodeKind) :
    parentEntry.SameContent (shrunkParent parentEntry child kind) := by
  unfold shrunkParent InodeEntry.removeChildByIno
  split <;> exact ⟨rfl, rfl, rfl, rfl, rfl⟩

theorem nlink_shrunkParent_file (parentEntry : InodeEntry) (child : Ino) :
    (shrunkParent parentEntry child .file).nlink = parentEntry.nlink := by
  unfold shrunkParent InodeEntry.removeChildByIno
  split <;> rfl

theorem samePlace_shrunkParent {parentEntry : InodeEntry}
    (directory : parentEntry.kind = .directory) (child : Ino)
    (kind : InodeKind) :
    parentEntry.SamePlace (shrunkParent parentEntry child kind) := by
  unfold shrunkParent InodeEntry.removeChildByIno
  split <;> exact ⟨rfl, rfl, rfl, rfl, rfl, fun file => absurd directory file⟩

/-- Detaching an inode only changes its parent. -/
theorem get_detached (table : InodeTable) {ino parent other : Ino}
    (kind : InodeKind) (notIno : other ≠ ino) (notParent : other ≠ parent) :
    ((table.dropEntry ino).detachFromParent parent ino kind).get other =
      table.get other := by
  unfold detachFromParent
  rw [get_modify_of_ne _ notParent, get_dropEntry, if_neg notIno]

namespace Treelike

variable {table : InodeTable} {ino : Ino} {entry : InodeEntry}

/-- What is below a removed inode has its children until it goes itself. -/
theorem children_detached (tree : table.Treelike)
    (found : table.get ino = some entry)
    (attached : table.Lists entry.parent ino) {child : DirChild}
    (inChildren : child ∈ entry.children) (lower : Ino)
    (below : table.Below child.ino lower) :
    (((table.dropEntry ino).detachFromParent entry.parent ino
      entry.kind).get lower).map (·.children) =
      (table.get lower).map (·.children) := by
  obtain ⟨lowerBelow, notIno⟩ :=
    tree.below_of_child ⟨entry, child.name, found, inChildren⟩ below
  have notParent : lower ≠ entry.parent := by
    rintro rfl
    exact tree.parent_not_below attached lowerBelow
  rw [get_detached table entry.kind notIno notParent]

/-- Lookups, mappings and descendants once the removed inode is detached. -/
theorem remove_eq (tree : table.Treelike)
    (found : table.get ino = some entry) {parentEntry : InodeEntry}
    (foundParent : table.get entry.parent = some parentEntry)
    (attached : table.Lists entry.parent ino) :
    ∃ (inos : List Ino) (detached : InodeTable),
      table.remove ino = inos.foldl dropEntry detached ∧
      (∀ lower, lower ∈ inos ↔ table.Below ino lower ∧ lower ≠ ino) ∧
      detached.nextInode = table.nextInode ∧
      detached.pathToInode =
        Function.update table.pathToInode entry.fullPath none ∧
      detached.get ino = none ∧
      detached.get entry.parent =
        some (shrunkParent parentEntry ino entry.kind) ∧
      ∀ other, other ≠ ino → other ≠ entry.parent →
        detached.get other = table.get other := by
  have distinct : entry.parent ≠ ino := fun same =>
    tree.parent_not_below attached (same ▸ .refl)
  have dropped : (table.dropEntry ino).get entry.parent = some parentEntry := by
    rw [get_dropEntry, if_neg distinct, foundParent]
  refine ⟨(entry.children.reverse.map (·.ino)).flatMap
      (((table.dropEntry ino).detachFromParent entry.parent ino
        entry.kind).descendants table.depthBound),
    (table.dropEntry ino).detachFromParent entry.parent ino entry.kind,
    ?_, ?_, ?_, ?_, ?_, ?_, ?_⟩
  · simp only [remove, found]
  · intro lower
    rw [List.mem_flatMap]
    constructor
    · rintro ⟨child, listed, member⟩
      obtain ⟨⟨_, name⟩, inChildren, rfl⟩ := List.mem_map.mp listed
      have inChildren := List.mem_reverse.mp inChildren
      rw [descendants_congr
        (tree.children_detached found attached inChildren)] at member
      exact tree.below_of_child ⟨entry, name, found, inChildren⟩
        (mem_descendants_below member)
    · rintro ⟨below, proper⟩
      rcases Relation.ReflTransGen.cases_head below with rfl | ⟨child, step, rest⟩
      · exact absurd rfl proper
      · obtain ⟨again, name, foundAgain, inChildren⟩ := step
        obtain rfl := Option.some.inj (found.symm.trans foundAgain)
        refine ⟨child, List.mem_map.mpr
          ⟨⟨child, name⟩, List.mem_reverse.mpr inChildren, rfl⟩, ?_⟩
        rw [descendants_congr
          (tree.children_detached found attached inChildren)]
        exact tree.mem_descendants_iff.mpr rest
  · exact (nextInode_modify _ _ _).trans (nextInode_dropEntry _ _)
  · rw [detachFromParent_path]
    simp only [dropEntry, found, removePath, pathToInode_erase]
  · unfold detachFromParent
    rw [get_modify_of_ne _ distinct.symm, get_dropEntry, if_pos rfl]
  · unfold detachFromParent
    rw [get_modify, if_pos rfl, dropped]
    rfl
  · intro other notIno notParent
    exact get_detached table entry.kind notIno notParent

end Treelike

/-- `after` is the table without what is at or below the child of a directory;
the directory has lost the child, and a link with a subdirectory. -/
structure CutsOff (table after : InodeTable) (parent child : Ino) : Prop where
  gone : ∀ {ino}, table.Below child ino → after.get ino = none
  above : ∀ {parentEntry entry}, table.get parent = some parentEntry →
    table.get child = some entry →
    after.get parent = some (shrunkParent parentEntry child entry.kind)
  others : ∀ {ino}, ¬ table.Below child ino → ino ≠ parent →
    after.get ino = table.get ino
  nextInode : after.nextInode = table.nextInode

theorem Treelike.cutsOff {table : InodeTable} (tree : table.Treelike)
    {parent child : Ino} (listed : table.Lists parent child) :
    table.CutsOff (table.remove child) parent child := by
  obtain ⟨parentEntry, name, foundParent, inChildren⟩ := id listed
  obtain ⟨entry, found, rfl, _⟩ := tree.child foundParent inChildren
  obtain ⟨inos, detached, removed, members, nextInode, _, noChild, atParent,
    elsewhere⟩ := tree.remove_eq found foundParent listed
  have get : ∀ other, (table.remove child).get other =
      if other ∈ inos then none else detached.get other := by
    intro other
    rw [removed, get_foldl_dropEntry]
  have outside : ∀ {other}, ¬ table.Below child other → other ∉ inos :=
    fun notBelow member => notBelow ((members _).mp member).1
  constructor
  · intro ino below
    rw [get]
    split <;> rename_i member
    · rfl
    · have same : ino = child := by
        by_contra proper
        exact member ((members ino).mpr ⟨below, proper⟩)
      rw [same, noChild]
  · intro other again foundOther foundAgain
    obtain rfl := Option.some.inj (foundOther.symm.trans foundParent)
    obtain rfl := Option.some.inj (foundAgain.symm.trans found)
    rw [get, if_neg (outside (tree.parent_not_below listed)), atParent]
  · intro ino notBelow notParent
    have notChild : ino ≠ child := fun same => notBelow (same ▸ .refl)
    rw [get, if_neg (outside notBelow), elsewhere ino notChild notParent]
  · rw [removed, nextInode_foldl_dropEntry, nextInode]

/-- What is below an inode is read from the entries below it. -/
theorem below_congr {table after : InodeTable} {upper : Ino}
    (same : ∀ {lower}, table.Below upper lower →
      after.get lower = table.get lower) {lower : Ino} :
    after.Below upper lower ↔ table.Below upper lower := by
  constructor
  · intro below
    induction below with
    | refl => exact .refl
    | tail _ step ih =>
        obtain ⟨entry, name, found, listed⟩ := step
        exact ih.tail ⟨entry, name, (same ih).symm.trans found, listed⟩
  · intro below
    induction below with
    | refl => exact .refl
    | tail above step ih =>
        obtain ⟨entry, name, found, listed⟩ := step
        exact ih.tail ⟨entry, name, (same above).trans found, listed⟩

/-- The subtrees of the siblings stay as they are. -/
theorem CutsOff.sibling {table after : InodeTable} (tree : table.Treelike)
    {parent child : Ino} (cutsOff : table.CutsOff after parent child)
    (listed : table.Lists parent child) {sibling : Ino}
    (listedSibling : table.Lists parent sibling) (different : sibling ≠ child)
    {lower : Ino} (below : table.Below sibling lower) :
    after.get lower = table.get lower := by
  apply cutsOff.others
  · intro again
    exact different (tree.forest.child_eq (mem_pushed.mpr listedSibling)
      (mem_pushed.mpr listed) (leads_iff.mpr below) (leads_iff.mpr again))
  · rintro rfl
    exact tree.parent_not_below listedSibling below

/-! ## What keeps the shape -/

section

variable {table after : InodeTable} {parent child : Ino}

theorem CutsOff.source (cutsOff : table.CutsOff after parent child)
    (listed : table.Lists parent child) {ino : Ino} {other : InodeEntry}
    (got : after.get ino = some other) :
    ¬ table.Below child ino ∧ ∃ entry, table.get ino = some entry := by
  have stays : ¬ table.Below child ino := by
    intro below
    rw [cutsOff.gone below] at got
    cases got
  refine ⟨stays, ?_⟩
  by_cases isParent : ino = parent
  · obtain ⟨entry, _, found, _⟩ := listed
    exact ⟨entry, isParent ▸ found⟩
  · exact ⟨other, (cutsOff.others stays isParent).symm.trans got⟩

/-- What stays keeps its place, its content and the children that stay. -/
theorem CutsOff.entry (tree : table.Treelike)
    (cutsOff : table.CutsOff after parent child)
    (listed : table.Lists parent child) {ino : Ino} {entry : InodeEntry}
    (found : table.get ino = some entry) (stays : ¬ table.Below child ino) :
    ∃ other, after.get ino = some other ∧ entry.SamePlace other ∧
      entry.SameContent other ∧ (entry.Indexed → other.Indexed) ∧
      (other.children.map (·.ino)).Nodup ∧
      ∀ inner, inner ∈ other.children ↔
        inner ∈ entry.children ∧ ¬ table.Below child inner.ino := by
  have nodup := tree.nodup found
  have belowInner : ∀ {inner}, inner ∈ entry.children →
      (table.Below child inner.ino ↔ inner.ino = child) := by
    intro inner inChildren
    rw [tree.below_child_iff ⟨entry, inner.name, found, inChildren⟩]
    exact or_iff_left stays
  obtain ⟨parentEntry, name, foundParent, inParent⟩ := listed
  obtain ⟨childEntry, foundChild, childParent, _⟩ :=
    tree.child foundParent inParent
  by_cases isParent : ino = parent
  · subst isParent
    obtain rfl := Option.some.inj (found.symm.trans foundParent)
    refine ⟨_, cutsOff.above found foundChild,
      samePlace_shrunkParent (tree.directory found inParent) child _,
      sameContent_shrunkParent _ _ _, fun indexed => ?_,
      InodeEntry.nodup_removeChildByIno nodup child, fun inner => ?_⟩
    · have kept := indexed.removeChildByIno child
      exact ⟨kept.nodup, kept.index⟩
    · refine (InodeEntry.mem_removeChildByIno nodup).trans ?_
      exact and_congr_right fun inEntry => not_congr (belowInner inEntry).symm
  · refine ⟨entry, (cutsOff.others stays isParent).trans found, .refl entry,
      .refl entry, id, nodup, fun inner => ?_⟩
    refine (and_iff_left_of_imp fun inEntry below => isParent ?_).symm
    obtain ⟨_, foundInner, innerParent, _⟩ := tree.child found inEntry
    rw [(belowInner inEntry).mp below, foundChild] at foundInner
    obtain rfl := Option.some.inj foundInner
    exact innerParent.symm.trans childParent

theorem CutsOff.treelike (tree : table.Treelike)
    (cutsOff : table.CutsOff after parent child)
    (listed : table.Lists parent child) : after.Treelike := by
  constructor
  · intro ino other got
    obtain ⟨_, entry, found⟩ := cutsOff.source listed got
    rw [cutsOff.nextInode]
    exact tree.given found
  · intro ino other got
    obtain ⟨stays, entry, found⟩ := cutsOff.source listed got
    obtain ⟨_, gotAgain, _, _, _, nodup, _⟩ :=
      cutsOff.entry tree listed found stays
    obtain rfl := Option.some.inj (got.symm.trans gotAgain)
    exact nodup
  · intro ino other inner got inOther
    obtain ⟨stays, entry, found⟩ := cutsOff.source listed got
    obtain ⟨_, gotAgain, place, _, _, _, children⟩ :=
      cutsOff.entry tree listed found stays
    obtain rfl := Option.some.inj (got.symm.trans gotAgain)
    exact place.kind.trans
      (tree.directory found ((children inner).mp inOther).1)
  · intro ino other inner got inOther
    obtain ⟨stays, entry, found⟩ := cutsOff.source listed got
    obtain ⟨_, gotAgain, place, _, _, _, children⟩ :=
      cutsOff.entry tree listed found stays
    obtain rfl := Option.some.inj (got.symm.trans gotAgain)
    obtain ⟨inEntry, innerStays⟩ := (children inner).mp inOther
    obtain ⟨innerEntry, foundInner, innerParent, longer⟩ :=
      tree.child found inEntry
    obtain ⟨innerOther, gotInner, innerPlace, _, _, _, innerChildren⟩ :=
      cutsOff.entry tree listed foundInner innerStays
    refine ⟨innerOther, gotInner, innerPlace.parent.trans innerParent, ?_⟩
    intro inhabited
    obtain ⟨lower, inLower⟩ := List.exists_mem_of_ne_nil _ inhabited
    rw [place.fullPath, innerPlace.fullPath]
    exact longer (List.ne_nil_of_mem ((innerChildren lower).mp inLower).1)

end

theorem Treelike.similar {before after : InodeTable} (tree : before.Treelike)
    (similar : before.Similar after) : after.Treelike := by
  constructor
  · intro ino other got
    obtain ⟨entry, found, _⟩ := similar.backward got
    rw [similar.nextInode]
    exact tree.given found
  · intro ino other got
    obtain ⟨entry, found, same⟩ := similar.backward got
    rw [same.children]
    exact tree.nodup found
  · intro ino other child got listed
    obtain ⟨entry, found, same⟩ := similar.backward got
    rw [same.children] at listed
    exact same.kind.trans (tree.directory found listed)
  · intro ino other child got listed
    obtain ⟨entry, found, same⟩ := similar.backward got
    rw [same.children] at listed
    obtain ⟨childEntry, foundChild, parent, longer⟩ := tree.child found listed
    obtain ⟨childOther, gotChild, sameChild⟩ := similar.forward foundChild
    refine ⟨childOther, gotChild, sameChild.parent.trans parent, ?_⟩
    rw [sameChild.children, same.fullPath, sameChild.fullPath]
    exact longer

/-- A directory that may get a first child: its path is already longer than
that of the directory it is in. -/
structure Expandable (table : InodeTable) (parent : Ino) : Prop where
  tree : table.Treelike
  directory : table.isDirectory parent = true
  longer : ∀ {upper upperEntry name parentEntry},
    table.get upper = some upperEntry →
    ⟨parent, name⟩ ∈ upperEntry.children →
    table.get parent = some parentEntry →
    upperEntry.fullPath.length < parentEntry.fullPath.length

theorem Expandable.similar {before after : InodeTable} {parent : Ino}
    (expandable : before.Expandable parent) (similar : before.Similar after) :
    after.Expandable parent := by
  refine ⟨expandable.tree.similar similar, ?_, ?_⟩
  · obtain ⟨entry, found, directory⟩ := isDirectory_iff.mp expandable.directory
    obtain ⟨other, got, same⟩ := similar.forward found
    exact isDirectory_iff.mpr ⟨other, got, same.kind.trans directory⟩
  · intro upper upperOther name other gotUpper listed got
    obtain ⟨upperEntry, foundUpper, sameUpper⟩ := similar.backward gotUpper
    obtain ⟨entry, found, same⟩ := similar.backward got
    rw [sameUpper.children] at listed
    rw [sameUpper.fullPath, same.fullPath]
    exact expandable.longer foundUpper listed found

/-- An old child is still a child of its directory, also when it is the
directory that has grown. -/
theorem Expandable.child_of_grown {table after : InodeTable} {parent : Ino}
    (expandable : table.Expandable parent) {parentEntry : InodeEntry}
    (foundParent : table.get parent = some parentEntry) {name : Name}
    {kind : InodeKind} (gotParent : after.get parent =
      some (grownParent parentEntry table.nextInode name kind))
    (others : ∀ other, other ≠ table.nextInode → other ≠ parent →
      after.get other = table.get other)
    {ino : Ino} {entry : InodeEntry} {child : DirChild}
    (found : table.get ino = some entry) (listed : child ∈ entry.children) :
    ∃ childEntry, after.get child.ino = some childEntry ∧
      childEntry.parent = ino ∧ (childEntry.children ≠ [] →
        entry.fullPath.length < childEntry.fullPath.length) := by
  have tree := expandable.tree
  obtain ⟨childEntry, foundChild, named, longer⟩ := tree.child found listed
  obtain ⟨childIno, childName⟩ := child
  by_cases isParent : childIno = parent
  · subst isParent
    obtain rfl := Option.some.inj (foundChild.symm.trans foundParent)
    have long := expandable.longer found listed foundParent
    exact ⟨_, gotParent, named, fun _ => long⟩
  · have isOld : childIno ≠ table.nextInode :=
      Nat.ne_of_lt (tree.given foundChild)
    exact ⟨childEntry, (others _ isOld isParent).trans foundChild, named,
      longer⟩

/-- A new inode is a leaf, so its name and its path may be anything. -/
theorem Expandable.insert {table : InodeTable} {parent : Ino}
    (expandable : table.Expandable parent) (name : Name) (fullPath : Path)
    (kind : InodeKind) (size : Nat) (mtime : Time) (xetHash : Option Hash)
    (mode uid gid : Nat) (now : Time) :
    (table.insert parent name fullPath kind size mtime xetHash mode uid gid
      now).2.Expandable parent := by
  have tree := expandable.tree
  obtain ⟨parentEntry, foundParent, directory⟩ :=
    isDirectory_iff.mp expandable.directory
  cases mapped : table.pathToInode fullPath with
  | some existing =>
      simp only [InodeTable.insert, mapped]
      apply expandable.similar
      exact similar_modify table existing fun _ => .of_fields rfl
  | none =>
      obtain ⟨after, inserted, nextInode, _, gotNew, gotParent, others⟩ :=
        insert_unmapped foundParent (tree.given foundParent) mapped name kind
          size mtime xetHash mode uid gid now
      rw [inserted]
      have old : ∀ {ino entry}, table.get ino = some entry →
          ino ≠ table.nextInode := fun found => Nat.ne_of_lt (tree.given found)
      have grown : ∀ {child}, child ∈ (grownParent parentEntry table.nextInode
          name kind).children ↔
          child ∈ parentEntry.children ∨ child = ⟨table.nextInode, name⟩ :=
        InodeEntry.mem_addChild
      have split := @get_insert_cases _ _ _ _ _ _ gotNew gotParent others
      have child := @Expandable.child_of_grown _ _ _ expandable _
        foundParent _ _ gotParent others
      refine ⟨⟨?_, ?_, ?_, ?_⟩, ?_, ?_⟩
      · intro ino other got
        rw [nextInode]
        rcases split got with ⟨rfl, _⟩ | ⟨rfl, _⟩ | ⟨_, found⟩
        · exact Nat.lt_succ_self _
        · exact Nat.lt_succ_of_lt (tree.given foundParent)
        · exact Nat.lt_succ_of_lt (tree.given found)
      · intro ino other got
        rcases split got with ⟨_, rfl⟩ | ⟨_, rfl⟩ | ⟨_, found⟩
        · exact List.nodup_nil
        · apply InodeEntry.nodup_addChild (tree.nodup foundParent)
          intro inner listed
          obtain ⟨_, foundInner, _⟩ := tree.child foundParent listed
          exact old foundInner
        · exact tree.nodup found
      · intro ino other inner got listed
        rcases split got with ⟨_, rfl⟩ | ⟨_, rfl⟩ | ⟨_, found⟩
        · cases listed
        · exact directory
        · exact tree.directory found listed
      · intro ino other inner got listed
        rcases split got with ⟨_, rfl⟩ | ⟨rfl, rfl⟩ | ⟨_, found⟩
        · cases listed
        · rcases grown.mp listed with earlier | rfl
          · have kept := child foundParent earlier
            exact kept
          · exact ⟨_, gotNew, rfl, fun inner => absurd rfl inner⟩
        · exact child found listed
      · exact isDirectory_iff.mpr ⟨_, gotParent, directory⟩
      · intro upper other again entry got listed gotEntry
        obtain rfl := Option.some.inj (gotParent.symm.trans gotEntry)
        rcases split got with ⟨_, rfl⟩ | ⟨rfl, rfl⟩ | ⟨_, found⟩
        · cases listed
        · rcases grown.mp listed with earlier | new
          · have long := expandable.longer foundParent earlier foundParent
            exact long
          · exact absurd (congrArg DirChild.ino new) (old foundParent)
        · have long := expandable.longer found listed foundParent
          exact long

end InodeTable

end HfMount.Inode
