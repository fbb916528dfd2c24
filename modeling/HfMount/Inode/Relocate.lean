import HfMount.Inode.Subtree

/-!
# Moving a subtree

A rename takes one directory entry to another place and rewrites the path of
every inode below it.  The rewriting is a fold over the list of moves, in which
each inode below gets its old path with the front exchanged.
-/

namespace HfMount.Inode

open SlashPath

namespace InodeTable

/-! ## The list of moves -/

/-- The inodes that `updateSubtreePathsFrom` visits, each with its new path. -/
def subtreeMoves (table : InodeTable) : Nat → Ino → Path → List (Ino × Path)
  | 0, _, _ => []
  | depth + 1, ino, newFullPath =>
      match table.get ino with
      | none => []
      | some entry =>
          (ino, newFullPath) :: entry.children.flatMap fun child =>
            table.subtreeMoves depth child.ino (childPath newFullPath child.name)

theorem get_setPath (table : InodeTable) (move : Ino × Path) (other : Ino) :
    (table.setPath move).get other =
      if other = move.1 then
        (table.get other).map fun entry => { entry with fullPath := move.2 }
      else table.get other := by
  unfold setPath
  split <;> rename_i found
  · rw [get_insertPath, get_put]
    split <;> rename_i same
    · rw [same, found]
      rfl
    · rfl
  · split <;> rename_i same
    · rw [same, found]
      rfl
    · rfl

/-- A new path changes nothing that does not look at the path. -/
theorem observe_setPath {α : Type} {observe : InodeEntry → α}
    (blind : ∀ (entry : InodeEntry) path,
      observe { entry with fullPath := path } = observe entry)
    (table : InodeTable) (move : Ino × Path) (other : Ino) :
    ((table.setPath move).get other).map observe =
      (table.get other).map observe := by
  rw [get_setPath]
  split
  · rw [Option.map_map]
    congr 1
    funext entry
    exact blind entry move.2
  · rfl

theorem observe_foldl_setPath {α : Type} {observe : InodeEntry → α}
    (blind : ∀ (entry : InodeEntry) path,
      observe { entry with fullPath := path } = observe entry)
    (moves : List (Ino × Path)) (table : InodeTable) (other : Ino) :
    ((moves.foldl setPath table).get other).map observe =
      (table.get other).map observe := by
  induction moves generalizing table with
  | nil => rfl
  | cons move moves ih => rw [List.foldl_cons, ih, observe_setPath blind]

theorem subtreeMoves_congr {left right : InodeTable} {depth : Nat} {upper : Ino}
    {newFullPath : Path}
    (same : ∀ ino, left.Below upper ino →
      (right.get ino).map (·.children) = (left.get ino).map (·.children)) :
    right.subtreeMoves depth upper newFullPath =
      left.subtreeMoves depth upper newFullPath := by
  induction depth generalizing upper newFullPath with
  | zero => rfl
  | succ depth ih =>
      have here := same upper .refl
      unfold subtreeMoves
      cases foundLeft : left.get upper with
      | none =>
          rw [foundLeft] at here
          have foundRight : right.get upper = none := by
            simpa using here
          rw [foundRight]
      | some leftEntry =>
          rw [foundLeft] at here
          obtain ⟨rightEntry, foundRight, children⟩ :=
            Option.map_eq_some_iff.mp here
          rw [foundRight]
          simp only [children]
          refine congrArg ((upper, newFullPath) :: ·) (List.flatMap_congr ?_)
          intro child listed
          apply ih
          intro ino below
          exact same ino (Relation.ReflTransGen.head
            ⟨leftEntry, child.name, foundLeft, listed⟩ below)

/-- The recursion over the subtree is a fold over its moves. -/
theorem updateSubtreePathsFrom_eq (table : InodeTable) (depth : Nat)
    (ino : Ino) (newFullPath : Path) :
    table.updateSubtreePathsFrom depth ino newFullPath =
      (table.subtreeMoves depth ino newFullPath).foldl setPath table := by
  induction depth generalizing table ino newFullPath with
  | zero => rfl
  | succ depth ih =>
      unfold updateSubtreePathsFrom subtreeMoves
      cases found : table.get ino with
      | none => rfl
      | some entry =>
          simp only [List.foldl_cons]
          -- The children are folded over tables that differ in paths only.
          have fold : ∀ (children : List DirChild) (current : InodeTable),
              (∀ other, (current.get other).map (·.children) =
                (table.get other).map (·.children)) →
              children.foldl (fun reached child =>
                  reached.updateSubtreePathsFrom depth child.ino
                    (childPath newFullPath child.name)) current =
                (children.flatMap fun child =>
                  table.subtreeMoves depth child.ino
                    (childPath newFullPath child.name)).foldl setPath
                  current := by
            intro children
            induction children with
            | nil => exact fun _ _ => rfl
            | cons child children inner =>
                intro current same
                rw [List.foldl_cons, ih, List.flatMap_cons, List.foldl_append,
                  subtreeMoves_congr fun other _ => same other]
                apply inner
                intro other
                rw [observe_foldl_setPath fun _ _ => rfl, same]
          exact fold entry.children _ (observe_setPath (fun _ _ => rfl) table _)

/-! ## What the moves do -/

/-- The moves name each inode and each new path once, and no new path is the
old path of a moved inode. -/
structure Consistent (table : InodeTable) (moves : List (Ino × Path)) :
    Prop where
  present : ∀ {ino path}, (ino, path) ∈ moves → ∃ entry,
    table.get ino = some entry
  functional : ∀ {ino left right}, (ino, left) ∈ moves →
    (ino, right) ∈ moves → left = right
  injective : ∀ {left right path}, (left, path) ∈ moves →
    (right, path) ∈ moves → left = right
  apart : ∀ {ino path other otherPath entry}, (ino, path) ∈ moves →
    (other, otherPath) ∈ moves → table.get other = some entry →
    path ≠ entry.fullPath

theorem Consistent.of_append {table : InodeTable} {first second :
    List (Ino × Path)} (consistent : table.Consistent (first ++ second)) :
    table.Consistent first := by
  refine ⟨?_, ?_, ?_, ?_⟩
  · exact fun listed => consistent.present (List.mem_append_left _ listed)
  · exact fun left right => consistent.functional
      (List.mem_append_left _ left) (List.mem_append_left _ right)
  · exact fun left right => consistent.injective
      (List.mem_append_left _ left) (List.mem_append_left _ right)
  · exact fun left right found => consistent.apart
      (List.mem_append_left _ left) (List.mem_append_left _ right) found

theorem get_foldl_setPath_of_not_moved {moves : List (Ino × Path)}
    {table : InodeTable} {ino : Ino}
    (notMoved : ∀ path, (ino, path) ∉ moves) :
    (moves.foldl setPath table).get ino = table.get ino := by
  induction moves generalizing table with
  | nil => rfl
  | cons move moves ih =>
      rw [List.foldl_cons, ih fun path listed =>
        notMoved path (List.mem_cons_of_mem _ listed), get_setPath, if_neg]
      rintro rfl
      exact notMoved move.2 List.mem_cons_self

theorem get_foldl_setPath {table : InodeTable} {moves : List (Ino × Path)}
    (consistent : table.Consistent moves) {ino : Ino} {path : Path}
    {entry : InodeEntry} (moved : (ino, path) ∈ moves)
    (found : table.get ino = some entry) :
    (moves.foldl setPath table).get ino =
      some { entry with fullPath := path } := by
  induction moves using List.reverseRecOn with
  | nil => cases moved
  | append_singleton moves move ih =>
      rw [List.foldl_append, List.foldl_cons, List.foldl_nil, get_setPath]
      by_cases last : ino = move.1
      · have atEnd : (ino, move.2) ∈ moves ++ [move] :=
          List.mem_append_right _ (by simp [last])
        have samePath : move.2 = path := consistent.functional atEnd moved
        rw [if_pos last, samePath]
        by_cases earlier : ∃ other, (ino, other) ∈ moves
        · obtain ⟨other, listed⟩ := earlier
          have same : other = path := consistent.functional
            (List.mem_append_left _ listed) moved
          rw [ih consistent.of_append (same ▸ listed)]
          rfl
        · rw [get_foldl_setPath_of_not_moved fun other listed =>
            earlier ⟨other, listed⟩, found]
          rfl
      · rw [if_neg last]
        apply ih consistent.of_append
        rcases List.mem_append.mp moved with earlier | single
        · exact earlier
        · exact absurd (congrArg Prod.fst (List.mem_singleton.mp single)) last

@[simp] theorem nextInode_setPath (table : InodeTable) (move : Ino × Path) :
    (table.setPath move).nextInode = table.nextInode := by
  unfold setPath
  split <;> rfl

@[simp] theorem nextInode_foldl_setPath (moves : List (Ino × Path))
    (table : InodeTable) :
    (moves.foldl setPath table).nextInode = table.nextInode := by
  induction moves generalizing table with
  | nil => rfl
  | cons move moves ih => rw [List.foldl_cons, ih, nextInode_setPath]

theorem pathToInode_setPath {table : InodeTable} {move : Ino × Path}
    {entry : InodeEntry} (found : table.get move.1 = some entry) :
    (table.setPath move).pathToInode =
      Function.update (Function.update table.pathToInode entry.fullPath none)
        move.2 (some move.1) := by
  simp only [setPath, found]
  rfl

/-- The mappings after the moves: new paths lead to the moved inodes, their
old paths lead nowhere, and all other paths are as they were. -/
theorem pathToInode_foldl_setPath {table : InodeTable}
    {moves : List (Ino × Path)} (consistent : table.Consistent moves)
    (path : Path) (target : Ino) :
    (moves.foldl setPath table).pathToInode path = some target ↔
      (target, path) ∈ moves ∨
        (table.pathToInode path = some target ∧
          (∀ ino, (ino, path) ∉ moves) ∧
          ∀ ino newPath entry, (ino, newPath) ∈ moves →
            table.get ino = some entry → entry.fullPath ≠ path) := by
  induction moves using List.reverseRecOn with
  | nil => simp
  | append_singleton moves move ih =>
      obtain ⟨ino, newPath⟩ := move
      have last : (ino, newPath) ∈ moves ++ [(ino, newPath)] := by simp
      obtain ⟨entry, found⟩ := consistent.present last
      obtain ⟨current, foundCurrent, currentPath⟩ :
          ∃ current, (moves.foldl setPath table).get ino = some current ∧
            (current.fullPath = entry.fullPath ∨
              (ino, current.fullPath) ∈ moves) := by
        by_cases earlier : ∃ other, (ino, other) ∈ moves
        · obtain ⟨other, listed⟩ := earlier
          exact ⟨_, get_foldl_setPath consistent.of_append listed found,
            Or.inr listed⟩
        · exact ⟨entry, (get_foldl_setPath_of_not_moved fun other listed =>
            earlier ⟨other, listed⟩).trans found, Or.inl rfl⟩
      rw [List.foldl_append, List.foldl_cons, List.foldl_nil,
        pathToInode_setPath foundCurrent]
      by_cases here : path = newPath
      · subst here
        rw [Function.update_self]
        constructor
        · intro same
          rw [← Option.some.inj same]
          exact Or.inl last
        · rintro (listed | ⟨_, notNew, _⟩)
          · rw [consistent.injective last listed]
          · exact absurd last (notNew ino)
      · rw [Function.update_of_ne here]
        by_cases left : path = current.fullPath
        · rw [left, Function.update_self]
          constructor
          · intro absent
            cases absent
          · rintro (listed | ⟨_, notNew, notOld⟩)
            · rcases currentPath with unmoved | moved
              · exact absurd unmoved
                  (consistent.apart listed last found)
              · have earlier := List.mem_append_left [(ino, newPath)] moved
                exact absurd (left.trans (consistent.functional earlier last))
                  here
            · rcases currentPath with unmoved | moved
              · exact absurd unmoved.symm (notOld ino newPath entry last found)
              · exact absurd (List.mem_append_left _ moved) (notNew ino)
        · rw [Function.update_of_ne left, ih consistent.of_append]
          constructor
          · rintro (listed | ⟨mapped, notNew, notOld⟩)
            · exact Or.inl (List.mem_append_left _ listed)
            · refine Or.inr ⟨mapped, ?_, ?_⟩
              · intro other listed
                rcases List.mem_append.mp listed with earlier | single
                · exact notNew other earlier
                · have same := List.mem_singleton.mp single
                  exact here (congrArg Prod.snd same)
              · intro other otherPath otherEntry listed foundOther
                rcases List.mem_append.mp listed with earlier | single
                · exact notOld other otherPath otherEntry earlier foundOther
                · obtain ⟨rfl, rfl⟩ := Prod.mk.inj (List.mem_singleton.mp single)
                  obtain rfl := Option.some.inj (found.symm.trans foundOther)
                  rcases currentPath with unmoved | moved
                  · exact fun same => left (same.symm.trans unmoved.symm)
                  · exact notOld other _ entry moved found
          · rintro (listed | ⟨mapped, notNew, notOld⟩)
            · rcases List.mem_append.mp listed with earlier | single
              · exact Or.inl earlier
              · have same := List.mem_singleton.mp single
                exact absurd (congrArg Prod.snd same) here
            · refine Or.inr ⟨mapped, ?_, ?_⟩
              · exact fun other listed =>
                  notNew other (List.mem_append_left _ listed)
              · exact fun other otherPath otherEntry listed =>
                  notOld other otherPath otherEntry
                    (List.mem_append_left _ listed)

/-! ## Paths within a subtree -/

namespace WellFormed

variable {table : InodeTable}

theorem below_within (wf : table.WellFormed) {upper lower : Ino}
    {upperEntry lowerEntry : InodeEntry}
    (found : table.get upper = some upperEntry)
    (nonempty : upperEntry.fullPath ≠ []) (below : table.Below upper lower)
    (foundLower : table.get lower = some lowerEntry) :
    Within upperEntry.fullPath lowerEntry.fullPath := by
  induction below generalizing lowerEntry with
  | refl =>
      obtain rfl := Option.some.inj (found.symm.trans foundLower)
      exact within_refl _
  | tail above step ih =>
      obtain ⟨middleEntry, foundMiddle, _⟩ := wf.below found above
      obtain ⟨name, entry, _, _, isChild⟩ := wf.lists foundMiddle step
      obtain rfl := Option.some.inj (isChild.found.symm.trans foundLower)
      rw [isChild.fullPath]
      exact (ih foundMiddle).child nonempty name

/-- The moves of a subtree exchange the front of every path below. -/
theorem mem_subtreeMoves (wf : table.WellFormed) {depth : Nat} {upper : Ino}
    {upperEntry : InodeEntry} {newFullPath : Path}
    (found : table.get upper = some upperEntry)
    (oldNonempty : upperEntry.fullPath ≠ []) (newNonempty : newFullPath ≠ [])
    (enough : ∀ {ino : Ino} {entry : InodeEntry}, table.get ino = some entry →
      entry.fullPath.length < depth + upperEntry.fullPath.length)
    {lower : Ino} {path : Path} :
    (lower, path) ∈ table.subtreeMoves depth upper newFullPath ↔
      table.Below upper lower ∧ ∃ entry, table.get lower = some entry ∧
        path = rebase upperEntry.fullPath newFullPath entry.fullPath := by
  induction depth generalizing upper upperEntry newFullPath with
  | zero =>
      have short := enough found
      omega
  | succ depth ih =>
      -- The moves of a child are those of the subtree that it heads.
      have ofChild : ∀ {child : DirChild}, child ∈ upperEntry.children →
          ((lower, path) ∈ table.subtreeMoves depth child.ino
              (childPath newFullPath child.name) ↔
            table.Below child.ino lower ∧ ∃ entry,
              table.get lower = some entry ∧
              path = rebase upperEntry.fullPath newFullPath entry.fullPath) := by
        intro child listed
        have valid := (wf.directory found listed).2.2
        obtain ⟨childEntry, isChild⟩ := wf.child found listed
        have childNonempty : childEntry.fullPath ≠ [] := by
          rw [isChild.fullPath]
          exact childPath_ne_nil valid _
        have longer := length_lt_childPath valid upperEntry.fullPath
        rw [← isChild.fullPath] at longer
        rw [ih isChild.found childNonempty (childPath_ne_nil valid _)]
        · refine and_congr_right fun below => exists_congr fun entry =>
            and_congr_right fun foundLower => ?_
          have within := wf.below_within isChild.found childNonempty below
            foundLower
          rw [isChild.fullPath] at within
          rw [isChild.fullPath, rebase_of_child within oldNonempty newNonempty]
        · intro ino entry got
          have short := enough got
          omega
      unfold subtreeMoves
      rw [found]
      simp only [List.mem_cons, Prod.mk.injEq, List.mem_flatMap]
      constructor
      · rintro (⟨rfl, rfl⟩ | ⟨child, listed, moved⟩)
        · exact ⟨.refl, upperEntry, found, (rebase_self _ _).symm⟩
        · obtain ⟨below, moved⟩ := (ofChild listed).mp moved
          exact ⟨.head ⟨upperEntry, child.name, found, listed⟩ below, moved⟩
      · rintro ⟨below, moved⟩
        rcases Relation.ReflTransGen.cases_head below with
          rfl | ⟨child, ⟨other, name, foundOther, listed⟩, rest⟩
        · obtain ⟨entry, foundLower, rfl⟩ := moved
          obtain rfl := Option.some.inj (found.symm.trans foundLower)
          exact Or.inl ⟨rfl, rebase_self _ _⟩
        · obtain rfl := Option.some.inj (found.symm.trans foundOther)
          exact Or.inr ⟨_, listed, (ofChild listed).mpr ⟨rest, moved⟩⟩

/-- Nothing lives within a path that no live inode has. -/
theorem outside_free (wf : table.WellFormed) {path : Path}
    (unmapped : table.pathToInode path = none) (nonempty : path ≠ [])
    {ino : Ino} {entry : InodeEntry} (found : table.get ino = some entry)
    (live : entry.isLive = true) : ¬ Within path entry.fullPath := by
  induction bound : entry.fullPath.length using Nat.strong_induction_on
    generalizing ino entry with
  | _ length ih =>
      intro within
      by_cases root : ino = rootInode
      · obtain ⟨rootEntry, foundRoot, _, rootPath⟩ := wf.root
        rw [← root, found] at foundRoot
        obtain rfl := Option.some.inj foundRoot
        have short := within.length_le
        rw [rootPath] at short
        exact nonempty (List.eq_nil_of_length_eq_zero (Nat.le_zero.mp short))
      · obtain ⟨parentEntry, foundParent, directory, valid, _, fullPath⟩ :=
          wf.parent found root live
        have shorter := length_lt_childPath valid parentEntry.fullPath
        rw [← fullPath, bound] at shorter
        have proper : entry.fullPath ≠ path := by
          intro same
          rw [wf.path.mpr ⟨entry, found, live, same⟩] at unmapped
          cases unmapped
        rw [fullPath] at within proper
        rcases within_of_within_child valid within proper with empty | above
        · exact nonempty empty
        · exact ih _ shorter foundParent
            (InodeEntry.isLive_of_directory directory) rfl above

end WellFormed

/-! ## Moving a directory entry -/

/-- What a move does to the entry of a directory. -/
def relinked (ino oldParent : Ino) (oldName : Name) (newParent : Ino)
    (newName : Name) (directory : Ino) (entry : InodeEntry) : InodeEntry :=
  let removed :=
    if directory = oldParent then entry.removeChildByName oldName else entry
  if directory = newParent then removed.addChild ino newName else removed

@[simp] theorem pathToInode_moveChild (table : InodeTable) (ino oldParent : Ino)
    (oldName : Name) (newParent : Ino) (newName : Name) :
    (table.moveChild ino oldParent oldName newParent newName).pathToInode =
      table.pathToInode := by
  simp only [moveChild, pathToInode_modify]
  split <;> simp only [pathToInode_modify]

@[simp] theorem nextInode_moveChild (table : InodeTable) (ino oldParent : Ino)
    (oldName : Name) (newParent : Ino) (newName : Name) :
    (table.moveChild ino oldParent oldName newParent newName).nextInode =
      table.nextInode := by
  simp only [moveChild, nextInode_modify]
  split <;> simp only [nextInode_modify]

/-- The links of a directory after a move: those of the two parents change
when a directory moves between them. -/
def linkShift (isDir : Bool) (oldParent newParent other : Ino) (links : Nat) :
    Nat :=
  if isDir && oldParent != newParent then
    (if other = newParent then (· + 1) else id)
      ((if other = oldParent then (· - 1) else id) links)
  else links

theorem linkShift_of_ne {isDir : Bool} {oldParent newParent other : Ino}
    (notOld : other ≠ oldParent) (notNew : other ≠ newParent) (links : Nat) :
    linkShift isDir oldParent newParent other links = links := by
  unfold linkShift
  rw [if_neg notOld, if_neg notNew]
  split <;> rfl

/-- A lookup of any other inode after the move. -/
theorem get_moveChild {table : InodeTable} {ino oldParent newParent other : Ino}
    (oldName newName : Name) (distinct : other ≠ ino) :
    (table.moveChild ino oldParent oldName newParent newName).get other =
      (table.get other).map fun entry =>
        { relinked ino oldParent oldName newParent newName other entry with
          nlink := linkShift (table.isDirectory ino) oldParent newParent other
            entry.nlink } := by
  have links : ∀ entry : InodeEntry,
      (relinked ino oldParent oldName newParent newName other entry).nlink =
        entry.nlink := by
    intro entry
    unfold relinked InodeEntry.removeChildByName InodeEntry.addChild
    dsimp only
    split <;> split <;> first | rfl | split <;> rfl
  have attached : (((table.modify oldParent (·.removeChildByName oldName)).modify
      newParent (·.addChild ino newName)).get other) =
      (table.get other).map
        (relinked ino oldParent oldName newParent newName other) := by
    rw [get_modify, get_modify, get_modify]
    unfold relinked
    cases found : table.get other with
    | none => split <;> split <;> simp_all
    | some entry => split <;> split <;> simp_all
  have recounted : ∀ (current : InodeTable) (directory : Ino)
      (count : Nat → Nat),
      (current.modify directory fun entry =>
          { entry with nlink := count entry.nlink }).get other =
        (current.get other).map fun entry => { entry with
          nlink := (if other = directory then count else id) entry.nlink } := by
    intro current directory count
    rw [get_modify]
    split <;> rename_i same
    · rw [same]
    · exact Option.map_id'.symm
  unfold moveChild linkShift
  rw [get_modify_of_ne _ distinct]
  split
  · rw [recounted _ newParent (· + 1), recounted _ oldParent (· - 1),
      attached, Option.map_map, Option.map_map]
    congr 1
    funext entry
    simp only [Function.comp_apply, links]
  · rw [attached]
    congr 1
    funext entry
    rw [← links]

theorem get_moveChild_self {table : InodeTable} {ino oldParent newParent : Ino}
    (oldName newName : Name) (notOld : ino ≠ oldParent)
    (notNew : ino ≠ newParent) :
    (table.moveChild ino oldParent oldName newParent newName).get ino =
      (table.get ino).map fun entry =>
        { entry with
          parent := newParent
          name := newName } := by
  unfold moveChild
  rw [get_modify, if_pos rfl]
  congr 1
  split
  · rw [get_modify_of_ne _ notNew, get_modify_of_ne _ notOld,
      get_modify_of_ne _ notNew, get_modify_of_ne _ notOld]
  · rw [get_modify_of_ne _ notNew, get_modify_of_ne _ notOld]

/-- How an entry changes when `ino` becomes the child `newName` of
`newParent`, up to its path. -/
structure Reattached (ino newParent : Ino) (newName : Name) (other : Ino)
    (left right : InodeEntry) : Prop extends left.SameContent right where
  inode : right.inode = left.inode
  kind : right.kind = left.kind
  links : left.kind ≠ .directory → right.nlink = left.nlink
  parent : right.parent = if other = ino then newParent else left.parent
  name : right.name = if other = ino then newName else left.name
  indexed : right.Indexed
  children : ∀ child, child ∈ right.children ↔
    (child ∈ left.children ∧ child.ino ≠ ino) ∨
      (other = newParent ∧ child = ⟨ino, newName⟩)

theorem Reattached.isLive {ino newParent other : Ino} {newName : Name}
    {left right : InodeEntry}
    (same : Reattached ino newParent newName other left right) :
    right.isLive = left.isLive := by
  unfold InodeEntry.isLive
  rw [same.kind]
  by_cases directory : left.kind = .directory
  · simp [directory]
  · rw [same.links directory]

/-- A destination for `ino`: a directory that is not below it, with a free
name. -/
structure Destination (table : InodeTable) (ino newParent : Ino)
    (newName : Name) (newEntry : InodeEntry) : Prop where
  found : table.get newParent = some newEntry
  directory : newEntry.kind = .directory
  valid : ValidName newName
  free : newEntry.childIndex newName = none
  outside : ¬ table.Below ino newParent

/-- The children of a directory after the move. -/
theorem mem_relinked {table : InodeTable} (wf : table.WellFormed)
    {ino newParent other : Ino} {newName : Name}
    {entry newEntry otherEntry : InodeEntry}
    (found : table.get ino = some entry) (notRoot : ino ≠ rootInode)
    (live : entry.isLive = true)
    (destination : table.Destination ino newParent newName newEntry)
    (foundOther : table.get other = some otherEntry) :
    (relinked ino entry.parent entry.name newParent newName other
        otherEntry).Indexed ∧
      ∀ child, child ∈ (relinked ino entry.parent entry.name newParent newName
          other otherEntry).children ↔
        (child ∈ otherEntry.children ∧ child.ino ≠ ino) ∨
          (other = newParent ∧ child = ⟨ino, newName⟩) := by
  have indexed := wf.indexed foundOther
  -- Only the old parent lists the inode, and only under its name.
  have places : ∀ child ∈ otherEntry.children,
      (child.ino = ino ↔ other = entry.parent ∧ child.name = entry.name) := by
    intro child listed
    obtain ⟨childEntry, isChild⟩ := wf.child foundOther listed
    constructor
    · intro same
      have foundChild := isChild.found
      rw [same, found] at foundChild
      obtain rfl := Option.some.inj foundChild
      exact ⟨isChild.parent.symm, isChild.name.symm⟩
    · rintro ⟨isParent, sameName⟩
      obtain ⟨parentEntry, foundParent, _, _, inParent, _⟩ :=
        wf.parent found notRoot live
      rw [← isParent, foundOther] at foundParent
      obtain rfl := Option.some.inj foundParent
      obtain ⟨childIno, childName⟩ := child
      obtain rfl : childName = entry.name := sameName
      exact indexed.ino_eq listed inParent
  have removedIndexed : (if other = entry.parent then
      otherEntry.removeChildByName entry.name else otherEntry).Indexed := by
    split
    · exact indexed.removeChildByName _
    · exact indexed
  have removedChildren : ∀ child, child ∈ (if other = entry.parent then
      otherEntry.removeChildByName entry.name else otherEntry).children ↔
        child ∈ otherEntry.children ∧ child.ino ≠ ino := by
    intro child
    split <;> rename_i isParent
    · rw [InodeEntry.mem_removeChildByName indexed]
      refine and_congr_right fun listed => not_congr ?_
      rw [places child listed]
      exact (and_iff_right isParent).symm
    · refine (and_iff_left_of_imp fun listed same => ?_).symm
      exact isParent ((places child listed).mp same).1
  unfold relinked
  dsimp only
  split <;> rename_i isNew
  · subst isNew
    obtain rfl := Option.some.inj (foundOther.symm.trans destination.found)
    refine ⟨removedIndexed.addChild ?_ ?_, ?_⟩
    · cases listed : (if other = entry.parent then
          otherEntry.removeChildByName entry.name
        else otherEntry).childIndex newName with
      | none => rfl
      | some target =>
          have inRemoved := (removedIndexed.index newName target).mp listed
          have inEntry := ((removedChildren _).mp inRemoved).1
          have taken := (indexed.index newName target).mpr inEntry
          rw [destination.free] at taken
          cases taken
    · exact fun child listed => ((removedChildren child).mp listed).2
    · intro child
      rw [InodeEntry.mem_addChild, removedChildren]
      simp
  · refine ⟨removedIndexed, fun child => ?_⟩
    rw [removedChildren]
    simp [isNew]

theorem sameContent_relinked (ino oldParent : Ino) (oldName : Name)
    (newParent : Ino) (newName : Name) (directory : Ino) (entry : InodeEntry) :
    entry.SameContent
        (relinked ino oldParent oldName newParent newName directory entry) ∧
      (relinked ino oldParent oldName newParent newName directory
        entry).inode = entry.inode ∧
      (relinked ino oldParent oldName newParent newName directory
        entry).kind = entry.kind ∧
      (relinked ino oldParent oldName newParent newName directory
        entry).parent = entry.parent ∧
      (relinked ino oldParent oldName newParent newName directory
        entry).name = entry.name ∧
      (relinked ino oldParent oldName newParent newName directory
        entry).fullPath = entry.fullPath := by
  unfold relinked InodeEntry.removeChildByName InodeEntry.addChild
  dsimp only
  split <;> split <;>
    first
    | exact ⟨⟨rfl, rfl, rfl, rfl, rfl⟩, rfl, rfl, rfl, rfl, rfl⟩
    | split <;> exact ⟨⟨rfl, rfl, rfl, rfl, rfl⟩, rfl, rfl, rfl, rfl, rfl⟩

theorem reattached_moveChild {table : InodeTable} (wf : table.WellFormed)
    {ino newParent : Ino} {newName : Name} {entry newEntry : InodeEntry}
    (found : table.get ino = some entry) (notRoot : ino ≠ rootInode)
    (live : entry.isLive = true)
    (destination : table.Destination ino newParent newName newEntry)
    {other : Ino} {otherEntry : InodeEntry}
    (foundOther : table.get other = some otherEntry) :
    ∃ moved, (table.moveChild ino entry.parent entry.name newParent
        newName).get other = some moved ∧
      Reattached ino newParent newName other otherEntry moved ∧
      moved.fullPath = otherEntry.fullPath := by
  obtain ⟨parentEntry, foundParent, directory, _⟩ :=
    wf.parent found notRoot live
  have notParent : ino ≠ entry.parent := fun same =>
    wf.parent_not_below found notRoot live (same ▸ .refl)
  have notNew : ino ≠ newParent := fun same =>
    destination.outside (same ▸ .refl)
  by_cases isIno : other = ino
  · subst isIno
    obtain rfl := Option.some.inj (found.symm.trans foundOther)
    have got := table.get_moveChild_self entry.name newName notParent notNew
    rw [found, Option.map_some] at got
    refine ⟨_, got, ?_, rfl⟩
    have noChild : ∀ child ∈ entry.children, child.ino ≠ other := by
      intro child listed same
      obtain ⟨childEntry, isChild⟩ := wf.child found listed
      have foundChild := isChild.found
      rw [same, found] at foundChild
      obtain rfl := Option.some.inj foundChild
      exact notParent isChild.parent.symm
    refine ⟨⟨rfl, rfl, rfl, rfl, rfl⟩, rfl, rfl, fun _ => rfl, (if_pos rfl).symm,
      (if_pos rfl).symm, ⟨(wf.indexed found).nodup, (wf.indexed found).index⟩,
      ?_⟩
    intro child
    constructor
    · exact fun listed => Or.inl ⟨listed, noChild child listed⟩
    · rintro (⟨listed, _⟩ | ⟨isNew, _⟩)
      · exact listed
      · exact absurd isNew notNew
  · have got := @get_moveChild table ino entry.parent newParent other
      entry.name newName isIno
    obtain ⟨indexed, children⟩ :=
      mem_relinked wf found notRoot live destination foundOther
    obtain ⟨content, inode, kind, parent, name, fullPath⟩ :=
      sameContent_relinked ino entry.parent entry.name newParent newName other
        otherEntry
    rw [foundOther, Option.map_some] at got
    refine ⟨_, got, ⟨⟨content.size, content.xetHash, content.dirtyGeneration,
      content.pendingDeletes, content.childrenLoadedAt⟩, inode, kind, ?_, ?_, ?_,
      ⟨indexed.nodup, indexed.index⟩, children⟩, fullPath⟩
    · intro file
      have notOldParent : other ≠ entry.parent := by
        rintro rfl
        obtain rfl := Option.some.inj (foundParent.symm.trans foundOther)
        exact file directory
      have notNewParent : other ≠ newParent := by
        rintro rfl
        obtain rfl :=
          Option.some.inj (destination.found.symm.trans foundOther)
        exact file destination.directory
      exact linkShift_of_ne notOldParent notNewParent _
    · rw [if_neg isIno]
      exact parent
    · rw [if_neg isIno]
      exact name

/-! ## The whole move -/

/-- The steps that a rename does in a row: the old mapping goes, the directory
entry moves, and the paths below follow. -/
def relocate (table : InodeTable) (ino oldParent : Ino) (oldName : Name)
    (oldPath : Path) (newParent : Ino) (newName : Name) (newFullPath : Path) :
    InodeTable :=
  ((table.removePath oldPath).moveChild ino oldParent oldName newParent
    newName).updateSubtreePaths ino newFullPath

/-- `after` is `before` with `ino` and everything below it moved. -/
structure Moved (before after : InodeTable) (ino newParent : Ino)
    (newName : Name) (oldPath newPath : Path) : Prop where
  kept : ∀ {other : Ino} {entry : InodeEntry}, before.get other = some entry →
    ∃ moved, after.get other = some moved ∧
      Reattached ino newParent newName other entry moved ∧
      (before.Below ino other →
        moved.fullPath = rebase oldPath newPath entry.fullPath) ∧
      (¬ before.Below ino other → moved.fullPath = entry.fullPath)
  source : ∀ {other : Ino} {moved : InodeEntry}, after.get other = some moved →
    ∃ entry, before.get other = some entry
  path : ∀ {path : Path} {target : Ino},
    after.pathToInode path = some target ↔
      (before.Below ino target ∧ ∃ entry, before.get target = some entry ∧
        rebase oldPath newPath entry.fullPath = path) ∨
      (¬ before.Below ino target ∧ before.pathToInode path = some target)
  nextInode : after.nextInode = before.nextInode

theorem modify_removePath (table : InodeTable) (path : Path) (ino : Ino)
    (change : InodeEntry → InodeEntry) :
    (table.removePath path).modify ino change =
      (table.modify ino change).removePath path := by
  unfold modify
  rw [get_removePath]
  split <;> rfl

theorem moveChild_removePath (table : InodeTable) (path : Path)
    (ino oldParent : Ino) (oldName : Name) (newParent : Ino) (newName : Name) :
    (table.removePath path).moveChild ino oldParent oldName newParent newName =
      (table.moveChild ino oldParent oldName newParent newName).removePath
        path := by
  unfold moveChild
  dsimp only
  rw [modify_removePath, modify_removePath, isDirectory, get_removePath,
    ← isDirectory]
  split
  · rw [modify_removePath, modify_removePath, modify_removePath]
  · rw [modify_removePath]

theorem removePath_of_unmapped {table : InodeTable} {path : Path}
    (unmapped : table.pathToInode path = none) :
    table.removePath path = table := by
  unfold removePath
  rw [Function.update_eq_self_iff.mpr unmapped.symm]

/-- The walk over the subtree removes the old mapping itself. -/
theorem updateSubtreePaths_removePath {table : InodeTable} {ino : Ino}
    {entry : InodeEntry} (found : table.get ino = some entry)
    (newFullPath : Path) :
    (table.removePath entry.fullPath).updateSubtreePaths ino newFullPath =
      table.updateSubtreePaths ino newFullPath := by
  have again : (table.removePath entry.fullPath).removePath entry.fullPath =
      table.removePath entry.fullPath :=
    removePath_of_unmapped (Function.update_self _ _ _)
  have same : (table.removePath entry.fullPath).setPath (ino, newFullPath) =
      table.setPath (ino, newFullPath) := by
    simp only [setPath, get_removePath, found, again]
  have depth : (table.removePath entry.fullPath).depthBound =
      table.depthBound := rfl
  unfold updateSubtreePaths
  rw [depth]
  unfold depthBound
  simp only [updateSubtreePathsFrom, get_removePath, found, same]

/-- A move whose old path is nobody's moves the inode all the same. -/
theorem relocate_of_unmapped {table : InodeTable} {ino oldParent : Ino}
    {oldName : Name} {oldPath : Path} {newParent : Ino} {newName : Name}
    {moved : InodeEntry}
    (unmapped : table.pathToInode oldPath = none)
    (found : (table.moveChild ino oldParent oldName newParent newName).get ino =
      some moved) (newFullPath : Path) :
    table.relocate ino oldParent oldName oldPath newParent newName
        newFullPath =
      table.relocate ino oldParent oldName moved.fullPath newParent newName
        newFullPath := by
  unfold relocate
  rw [removePath_of_unmapped unmapped, moveChild_removePath,
    updateSubtreePaths_removePath found]

/-- The links of every inode after the whole move. -/
theorem nlink_relocate (table : InodeTable) {ino oldParent newParent : Ino}
    (oldName : Name) (oldPath : Path) (newName : Name) (newFullPath : Path)
    (notOld : ino ≠ oldParent) (notNew : ino ≠ newParent) (other : Ino) :
    ((table.relocate ino oldParent oldName oldPath newParent newName
        newFullPath).get other).map (·.nlink) =
      (table.get other).map fun entry =>
        linkShift (table.isDirectory ino) oldParent newParent other
          entry.nlink := by
  unfold relocate updateSubtreePaths
  rw [updateSubtreePathsFrom_eq, observe_foldl_setPath fun _ _ => rfl,
    moveChild_removePath, get_removePath]
  by_cases isIno : other = ino
  · subst isIno
    rw [get_moveChild_self _ _ notOld notNew, Option.map_map]
    congr 1
    funext entry
    exact (linkShift_of_ne notOld notNew _).symm
  · rw [get_moveChild _ _ isIno, Option.map_map]
    rfl

/-- The children of other directories stay, in the same order. -/
theorem children_moveChild {table : InodeTable}
    {ino oldParent newParent other : Ino} (oldName newName : Name)
    (notOld : other ≠ oldParent) (notNew : other ≠ newParent) :
    ((table.moveChild ino oldParent oldName newParent newName).get other).map
        (·.children) = (table.get other).map (·.children) := by
  by_cases isIno : other = ino
  · rw [isIno] at notOld notNew ⊢
    rw [get_moveChild_self _ _ notOld notNew, Option.map_map]
    rfl
  · rw [get_moveChild _ _ isIno, Option.map_map]
    congr 1
    funext entry
    simp only [Function.comp_apply, relinked, if_neg notOld, if_neg notNew]

/-- The entries that a moved table has are those of the table before. -/
theorem source_moveChild {table : InodeTable} {ino oldParent newParent : Ino}
    {oldName newName : Name} {other : Ino} {moved : InodeEntry}
    (got : (table.moveChild ino oldParent oldName newParent newName).get other =
      some moved) : ∃ entry, table.get other = some entry := by
  by_cases isIno : other = ino
  · subst isIno
    cases missing : table.get other with
    | some entry => exact ⟨entry, rfl⟩
    | none =>
        have kept : ∀ (current : InodeTable) (target : Ino) change,
            current.get other = none →
            (current.modify target change).get other = none := by
          intro current target change absent
          rw [get_modify]
          split <;> rename_i same
          · rw [← same, absent]
            rfl
          · exact absent
        unfold moveChild at got
        rw [kept] at got
        · cases got
        · split
          · exact kept _ _ _ (kept _ _ _ (kept _ _ _ (kept _ _ _ missing)))
          · exact kept _ _ _ (kept _ _ _ missing)
  · rw [get_moveChild _ _ isIno] at got
    obtain ⟨entry, found, _⟩ := Option.map_eq_some_iff.mp got
    exact ⟨entry, found⟩

theorem WellFormed.below_live {table : InodeTable} (wf : table.WellFormed)
    {ino other : Ino} {entry otherEntry : InodeEntry}
    (found : table.get ino = some entry) (live : entry.isLive = true)
    (below : table.Below ino other)
    (foundOther : table.get other = some otherEntry) :
    otherEntry.isLive = true := by
  obtain ⟨again, foundAgain, same | ⟨otherLive, _⟩⟩ := wf.below found below
  · rw [same, found] at foundOther
    exact Option.some.inj foundOther ▸ live
  · exact Option.some.inj (foundAgain.symm.trans foundOther) ▸ otherLive

theorem moved_relocate {table : InodeTable} (wf : table.WellFormed)
    {ino newParent : Ino} {newName : Name} {entry newEntry : InodeEntry}
    (found : table.get ino = some entry) (notRoot : ino ≠ rootInode)
    (live : entry.isLive = true)
    (destination : table.Destination ino newParent newName newEntry) :
    table.Moved (table.relocate ino entry.parent entry.name entry.fullPath
        newParent newName (childPath newEntry.fullPath newName))
      ino newParent newName entry.fullPath
      (childPath newEntry.fullPath newName) := by
  obtain ⟨reattached, reattachedDef⟩ : ∃ current, current =
      (table.moveChild ino entry.parent entry.name newParent
        newName).removePath entry.fullPath := ⟨_, rfl⟩
  obtain ⟨newPath, newPathDef⟩ :
      ∃ path, path = childPath newEntry.fullPath newName := ⟨_, rfl⟩
  have oldNonempty := wf.path_ne_nil found notRoot live
  have newNonempty : newPath ≠ [] := newPathDef ▸
    childPath_ne_nil destination.valid _
  have unmapped : table.pathToInode newPath = none := newPathDef ▸
    wf.path_of_free destination.found destination.directory destination.valid
      destination.free
  have forward : ∀ {other : Ino} {otherEntry : InodeEntry},
      table.get other = some otherEntry → ∃ moved,
        reattached.get other = some moved ∧
        Reattached ino newParent newName other otherEntry moved ∧
        moved.fullPath = otherEntry.fullPath := by
    intro other otherEntry foundOther
    rw [reattachedDef, get_removePath]
    exact reattached_moveChild wf found notRoot live destination foundOther
  have backward : ∀ {other : Ino} {moved : InodeEntry},
      reattached.get other = some moved →
      ∃ otherEntry, table.get other = some otherEntry ∧
        Reattached ino newParent newName other otherEntry moved ∧
        moved.fullPath = otherEntry.fullPath := by
    intro other moved got
    have gotMoved := got
    rw [reattachedDef, get_removePath] at gotMoved
    obtain ⟨otherEntry, foundOther⟩ := source_moveChild gotMoved
    obtain ⟨again, gotAgain, same, samePath⟩ := forward foundOther
    obtain rfl := Option.some.inj (got.symm.trans gotAgain)
    exact ⟨otherEntry, foundOther, same, samePath⟩
  -- The walk over the subtree sees the same children as before the move.
  obtain ⟨moves, movesDef⟩ : ∃ moves, moves =
      table.subtreeMoves reattached.depthBound ino newPath := ⟨_, rfl⟩
  have relocated : table.relocate ino entry.parent entry.name entry.fullPath
      newParent newName newPath = moves.foldl setPath reattached := by
    unfold relocate updateSubtreePaths
    rw [moveChild_removePath, ← reattachedDef, updateSubtreePathsFrom_eq,
      movesDef]
    congr 1
    apply subtreeMoves_congr
    intro other below
    rw [reattachedDef, get_removePath]
    apply children_moveChild
    · rintro rfl
      exact wf.parent_not_below found notRoot live below
    · rintro rfl
      exact destination.outside below
  have members : ∀ {other : Ino} {path : Path}, (other, path) ∈ moves ↔
      table.Below ino other ∧ ∃ otherEntry, table.get other = some otherEntry ∧
        path = rebase entry.fullPath newPath otherEntry.fullPath := by
    intro other path
    rw [movesDef]
    apply wf.mem_subtreeMoves found oldNonempty newNonempty
    intro target targetEntry foundTarget
    obtain ⟨moved, gotMoved, _, samePath⟩ := forward foundTarget
    have bounded := path_lt_depthBound gotMoved
    rw [samePath] at bounded
    exact Nat.lt_add_right _ bounded
  have consistent : reattached.Consistent moves := by
    refine ⟨?_, ?_, ?_, ?_⟩
    · intro other path moved
      obtain ⟨_, otherEntry, foundOther, _⟩ := members.mp moved
      obtain ⟨kept, gotKept, _⟩ := forward foundOther
      exact ⟨kept, gotKept⟩
    · intro other left right movedLeft movedRight
      obtain ⟨_, leftEntry, foundLeft, rfl⟩ := members.mp movedLeft
      obtain ⟨_, rightEntry, foundRight, rfl⟩ := members.mp movedRight
      rw [Option.some.inj (foundLeft.symm.trans foundRight)]
    · intro left right path movedLeft movedRight
      obtain ⟨belowLeft, leftEntry, foundLeft, rfl⟩ := members.mp movedLeft
      obtain ⟨belowRight, rightEntry, foundRight, samePath⟩ :=
        members.mp movedRight
      have same := rebase_injective
        (wf.below_within found oldNonempty belowLeft foundLeft)
        (wf.below_within found oldNonempty belowRight foundRight) samePath
      exact wf.unique foundLeft foundRight (wf.below_live found live belowLeft foundLeft)
        (wf.below_live found live belowRight foundRight) same
    · intro other path third thirdPath moved movedOther movedThird got samePath
      obtain ⟨below, otherEntry, foundOther, rfl⟩ := members.mp movedOther
      obtain ⟨belowThird, _⟩ := members.mp movedThird
      obtain ⟨thirdEntry, foundThird, _, oldPath⟩ := backward got
      have within := within_rebase
        (wf.below_within found oldNonempty below foundOther) newPath
      rw [samePath, oldPath] at within
      exact wf.outside_free unmapped newNonempty foundThird
        (wf.below_live found live belowThird foundThird) within
  rw [← newPathDef, relocated]
  refine ⟨?_, ?_, ?_, ?_⟩
  · intro other otherEntry foundOther
    obtain ⟨kept, gotKept, same, samePath⟩ := forward foundOther
    by_cases below : table.Below ino other
    · have moved := members.mpr ⟨below, otherEntry, foundOther, rfl⟩
      refine ⟨_, get_foldl_setPath consistent moved gotKept, ?_,
        fun _ => rfl, fun notBelow => absurd below notBelow⟩
      exact ⟨⟨same.size, same.xetHash, same.dirtyGeneration,
        same.pendingDeletes, same.childrenLoadedAt⟩, same.inode, same.kind,
        same.links, same.parent, same.name,
        ⟨same.indexed.nodup, same.indexed.index⟩, same.children⟩
    · have notMoved : ∀ path, (other, path) ∉ moves :=
        fun path moved => below (members.mp moved).1
      exact ⟨kept, (get_foldl_setPath_of_not_moved notMoved).trans gotKept,
        same, fun isBelow => absurd isBelow below, fun _ => samePath⟩
  · intro other moved got
    by_cases isMoved : ∃ path, (other, path) ∈ moves
    · obtain ⟨path, listed⟩ := isMoved
      obtain ⟨_, otherEntry, foundOther, _⟩ := members.mp listed
      exact ⟨otherEntry, foundOther⟩
    · rw [get_foldl_setPath_of_not_moved fun path listed =>
        isMoved ⟨path, listed⟩] at got
      obtain ⟨otherEntry, foundOther, _⟩ := backward got
      exact ⟨otherEntry, foundOther⟩
  · intro path target
    have mapping : reattached.pathToInode =
        Function.update table.pathToInode entry.fullPath none := by
      rw [reattachedDef]
      exact congrArg (Function.update · entry.fullPath none)
        (pathToInode_moveChild _ _ _ _ _ _)
    rw [pathToInode_foldl_setPath consistent, members, mapping]
    constructor
    · rintro (⟨below, otherEntry, foundOther, rfl⟩ | ⟨mapped, _, notOld⟩)
      · exact Or.inl ⟨below, otherEntry, foundOther, rfl⟩
      · right
        by_cases here : path = entry.fullPath
        · rw [here, Function.update_self] at mapped
          cases mapped
        rw [Function.update_of_ne here] at mapped
        refine ⟨fun below => ?_, mapped⟩
        obtain ⟨targetEntry, foundTarget, _, targetPath⟩ := wf.path.mp mapped
        obtain ⟨kept, gotKept, _, samePath⟩ := forward foundTarget
        exact notOld target _ kept
          (members.mpr ⟨below, targetEntry, foundTarget, rfl⟩) gotKept
          (samePath.trans targetPath)
    · rintro (⟨below, otherEntry, foundOther, rfl⟩ | ⟨notBelow, mapped⟩)
      · exact Or.inl ⟨below, otherEntry, foundOther, rfl⟩
      · right
        obtain ⟨targetEntry, foundTarget, targetLive, targetPath⟩ :=
          wf.path.mp mapped
        have apart : ∀ {other : Ino} {otherEntry : InodeEntry},
            table.Below ino other → table.get other = some otherEntry →
            otherEntry.fullPath ≠ path := by
          intro other otherEntry below foundOther samePath
          have same := wf.unique foundTarget foundOther targetLive
            (wf.below_live found live below foundOther) (targetPath.trans samePath.symm)
          exact notBelow (same ▸ below)
        refine ⟨?_, ?_, ?_⟩
        · rw [Function.update_of_ne (apart .refl found).symm]
          exact mapped
        · intro other listed
          obtain ⟨below, otherEntry, foundOther, rfl⟩ := members.mp listed
          have within := within_rebase
            (wf.below_within found oldNonempty below foundOther) newPath
          rw [← targetPath] at within
          exact wf.outside_free unmapped newNonempty foundTarget targetLive
            within
        · intro other otherPath moved listed got
          obtain ⟨below, _⟩ := members.mp listed
          obtain ⟨otherEntry, foundOther, _, samePath⟩ := backward got
          rw [samePath]
          exact apart below foundOther
  · rw [nextInode_foldl_setPath, reattachedDef]
    exact nextInode_moveChild _ _ _ _ _ _

theorem WellFormed.moved {before after : InodeTable} (wf : before.WellFormed)
    {ino newParent : Ino} {newName : Name} {entry newEntry : InodeEntry}
    (found : before.get ino = some entry) (notRoot : ino ≠ rootInode)
    (live : entry.isLive = true)
    (destination : before.Destination ino newParent newName newEntry)
    (moved : before.Moved after ino newParent newName entry.fullPath
      (childPath newEntry.fullPath newName)) : after.WellFormed := by
  have oldNonempty := wf.path_ne_nil found notRoot live
  have newNonempty := childPath_ne_nil destination.valid newEntry.fullPath
  -- Every entry after the move comes from one before it.
  have split : ∀ {other : Ino} {right : InodeEntry},
      after.get other = some right → ∃ left, before.get other = some left ∧
        Reattached ino newParent newName other left right ∧
        (before.Below ino other → right.fullPath = rebase entry.fullPath
          (childPath newEntry.fullPath newName) left.fullPath) ∧
        (¬ before.Below ino other → right.fullPath = left.fullPath) := by
    intro other right got
    obtain ⟨left, foundLeft⟩ := moved.source got
    obtain ⟨kept, gotKept, same, inside, outside⟩ := moved.kept foundLeft
    obtain rfl := Option.some.inj (got.symm.trans gotKept)
    exact ⟨left, foundLeft, same, inside, outside⟩
  constructor
  · obtain ⟨root, foundRoot, directory, fullPath⟩ := wf.root
    obtain ⟨kept, gotKept, same, _, outside⟩ := moved.kept foundRoot
    refine ⟨kept, gotKept, same.kind.trans directory, ?_⟩
    rw [outside, fullPath]
    intro below
    obtain ⟨_, _, isIno | ⟨_, notRootIno, _⟩⟩ := wf.below found below
    · exact notRoot isIno.symm
    · exact notRootIno rfl
  · intro other right got
    obtain ⟨left, foundLeft, same, _⟩ := split got
    rw [moved.nextInode, same.inode]
    exact wf.key foundLeft
  · intro other right got
    obtain ⟨left, foundLeft, same, _⟩ := split got
    exact same.indexed
  · intro other right got file
    obtain ⟨left, foundLeft, same, _⟩ := split got
    have fileLeft : left.kind ≠ .directory := same.kind ▸ file
    rw [same.links fileLeft]
    exact wf.links foundLeft fileLeft
  · intro other right child got listed
    obtain ⟨left, foundLeft, same, _⟩ := split got
    rw [same.kind]
    rcases (same.children child).mp listed with ⟨earlier, _⟩ | ⟨rfl, rfl⟩
    · exact wf.directory foundLeft earlier
    · obtain rfl := Option.some.inj (foundLeft.symm.trans destination.found)
      exact ⟨destination.directory, notRoot, destination.valid⟩
  · intro other right child got listed
    obtain ⟨left, foundLeft, same, inside, outside⟩ := split got
    rcases (same.children child).mp listed with ⟨earlier, notIno⟩ | ⟨rfl, rfl⟩
    · obtain ⟨childEntry, isChild⟩ := wf.child foundLeft earlier
      obtain ⟨kept, gotKept, sameChild, childInside, childOutside⟩ :=
        moved.kept isChild.found
      refine ⟨kept, gotKept, ?_, ?_, ?_, sameChild.isLive.trans isChild.live⟩
      · rw [sameChild.parent, if_neg notIno]
        exact isChild.parent
      · rw [sameChild.name, if_neg notIno]
        exact isChild.name
      · have place : before.Below ino child.ino ↔
            child.ino = ino ∨ before.Below ino other :=
          wf.below_child_iff foundLeft earlier
        by_cases below : before.Below ino other
        · have within := wf.below_within found oldNonempty below foundLeft
          rw [childInside (place.mpr (Or.inr below)), inside below,
            isChild.fullPath]
          exact rebase_childPath within oldNonempty newNonempty child.name
        · have notBelow : ¬ before.Below ino child.ino := by
            rw [place]
            exact fun either => either.elim notIno below
          rw [childOutside notBelow, outside below]
          exact isChild.fullPath
    · obtain rfl := Option.some.inj (foundLeft.symm.trans destination.found)
      obtain ⟨kept, gotKept, sameIno, insideIno, _⟩ := moved.kept found
      refine ⟨kept, gotKept, ?_, ?_, ?_, sameIno.isLive.trans live⟩
      · rw [sameIno.parent, if_pos rfl]
      · rw [sameIno.name, if_pos rfl]
      · rw [insideIno .refl, rebase_self, outside destination.outside]
  · intro other right got otherNotRoot rightLive
    obtain ⟨left, foundLeft, same, _⟩ := split got
    by_cases isIno : other = ino
    · obtain ⟨kept, gotKept, sameNew, _⟩ := moved.kept destination.found
      refine ⟨kept, ?_, ?_⟩
      · rw [same.parent, if_pos isIno]
        exact gotKept
      · rw [same.name, if_pos isIno, isIno]
        exact (sameNew.children _).mpr (Or.inr ⟨rfl, rfl⟩)
    · obtain ⟨parentEntry, foundParent, listed⟩ :=
        wf.attached foundLeft otherNotRoot (same.isLive.symm.trans rightLive)
      obtain ⟨kept, gotKept, sameParent, _⟩ := moved.kept foundParent
      refine ⟨kept, ?_, ?_⟩
      · rw [same.parent, if_neg isIno]
        exact gotKept
      · rw [same.name, if_neg isIno]
        exact (sameParent.children _).mpr (Or.inl ⟨listed, isIno⟩)
  · intro path target
    rw [moved.path]
    constructor
    · rintro (⟨below, left, foundLeft, rfl⟩ | ⟨notBelow, mapped⟩)
      · obtain ⟨kept, gotKept, same, inside, _⟩ := moved.kept foundLeft
        exact ⟨kept, gotKept, same.isLive.trans
          (wf.below_live found live below foundLeft), inside below⟩
      · obtain ⟨left, foundLeft, leftLive, leftPath⟩ := wf.path.mp mapped
        obtain ⟨kept, gotKept, same, _, outside⟩ := moved.kept foundLeft
        exact ⟨kept, gotKept, same.isLive.trans leftLive,
          (outside notBelow).trans leftPath⟩
    · rintro ⟨right, got, rightLive, rfl⟩
      obtain ⟨left, foundLeft, same, inside, outside⟩ := split got
      by_cases below : before.Below ino target
      · exact Or.inl ⟨below, left, foundLeft, (inside below).symm⟩
      · refine Or.inr ⟨below, wf.path.mpr ⟨left, foundLeft,
          same.isLive.symm.trans rightLive, (outside below).symm⟩⟩

end InodeTable

end HfMount.Inode
