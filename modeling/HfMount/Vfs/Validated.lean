import HfMount.Vfs.Rename

/-!
# What a validated rename knows

On a well-formed table the destination of a validated rename is outside the
subtree that moves, and the operations for the remote are exactly one addition
and one deletion for each clean file of that subtree.
-/

namespace HfMount.Inode

open SlashPath Vfs

namespace InodeTable

/-- Following the parents from below `src` meets `src`. -/
theorem WellFormed.reaches {table : InodeTable} (wf : table.WellFormed)
    {src ancestor : Ino} {srcEntry entry : InodeEntry} {bound : Nat}
    (foundSrc : table.get src = some srcEntry) (notRoot : src ≠ rootInode)
    (found : table.get ancestor = some entry)
    (enough : entry.fullPath.length < bound)
    (below : table.Below src ancestor) :
    table.reaches src bound ancestor = true := by
  induction bound generalizing ancestor entry with
  | zero => omega
  | succ bound ih =>
      unfold InodeTable.reaches
      rcases Relation.ReflTransGen.cases_tail below with rfl | ⟨parent, above, step⟩
      · simp [notRoot]
      · obtain ⟨parentEntry, foundParent, _⟩ := wf.below foundSrc above
        obtain ⟨name, childEntry, valid, listed, isChild⟩ :=
          wf.lists foundParent step
        obtain rfl := Option.some.inj (isChild.found.symm.trans found)
        have childNotRoot : ancestor ≠ rootInode :=
          (wf.directory foundParent listed).2.1
        have shorter := length_lt_childPath valid parentEntry.fullPath
        rw [← isChild.fullPath] at shorter
        rw [if_neg childNotRoot, found]
        split
        · rfl
        · dsimp only
          rw [isChild.parent]
          exact ih foundParent (by omega) above

/-- The loop visits what is below the inode, without the inode itself. -/
theorem WellFormed.mem_childrenBelow {table : InodeTable}
    (wf : table.WellFormed) {ino lower : Ino} {entry : InodeEntry}
    (found : table.get ino = some entry) :
    lower ∈ table.childrenBelow ino ↔ table.Below ino lower ∧ lower ≠ ino := by
  unfold childrenBelow
  constructor
  · intro member
    obtain ⟨dir, visited, listed⟩ := List.mem_flatMap.mp member
    have below := mem_descendants_below (List.mem_filter.mp visited).1
    obtain ⟨dirEntry, foundDir⟩ := wf.treelike.below found below
    rw [foundDir] at listed
    obtain ⟨⟨_, name⟩, inChildren, rfl⟩ := List.mem_map.mp listed
    have step : table.Lists dir _ := ⟨dirEntry, name, foundDir, inChildren⟩
    refine ⟨below.tail step, ?_⟩
    rintro rfl
    exact wf.treelike.parent_not_below step below
  · rintro ⟨below, different⟩
    rcases Relation.ReflTransGen.cases_tail below with same | ⟨dir, above, step⟩
    · exact absurd same different
    · obtain ⟨dirEntry, foundDir, _⟩ := wf.below found above
      obtain ⟨name, _, _, listed, _⟩ := wf.lists foundDir step
      have visited : dir ∈ table.descendants table.depthBound ino :=
        wf.treelike.mem_descendants_iff.mpr above
      have directory : table.isDirectory dir = true := by
        simp [isDirectory, foundDir, (wf.directory foundDir listed).1]
      refine List.mem_flatMap.mpr
        ⟨dir, List.mem_filter.mpr ⟨visited, directory⟩, ?_⟩
      rw [foundDir]
      exact List.mem_map.mpr ⟨_, listed, rfl⟩

/-! ## A successful validation -/

/-- What the validation has established about the source and the destination
directory. -/
structure Validated (table : InodeTable) (request : RenameRequest)
    (info : RenameInfo) (src newParentEntry : InodeEntry) : Prop where
  looked : table.lookupChild request.parent request.name = some src
  parent : table.get request.newparent = some newParentEntry
  acyclic : src.kind = .directory →
    table.reaches src.inode table.depthBound request.newparent = false
  noConflict : ∀ existing,
    table.lookupChild request.newparent request.newname = some existing →
    destinationConflict request.noReplace src.kind existing = none
  info : info = table.renameInfo request src newParentEntry

theorem renameValidate_eq_ok {table : InodeTable} {request : RenameRequest}
    {info : RenameInfo} (ok : table.renameValidate request = .ok info) :
    ∃ src newParentEntry,
      table.Validated request info src newParentEntry := by
  unfold renameValidate at ok
  split at ok <;> rename_i looked
  · cases ok
  rename_i src
  split at ok <;> rename_i parent
  · cases ok
  rename_i newParentEntry
  split at ok <;> rename_i cyclic
  · cases ok
  split at ok <;> rename_i conflict
  · cases ok
  refine ⟨src, newParentEntry, looked, parent, ?_, ?_,
    (Except.ok.inj ok).symm⟩
  · intro directory
    simpa [directory] using cyclic
  · intro existing found
    rw [found] at conflict
    exact conflict

namespace Validated

variable {table : InodeTable} {request : RenameRequest} {info : RenameInfo}
  {src newParentEntry : InodeEntry}

/-- The source is a live inode below the root, under the requested name. -/
theorem source (valid : table.Validated request info src newParentEntry)
    (wf : table.WellFormed) :
    table.get src.inode = some src ∧ src.inode ≠ rootInode ∧
      src.isLive = true ∧ src.parent = request.parent ∧
      src.name = request.name := by
  obtain ⟨parentEntry, found, listed, isChild⟩ :=
    wf.lookupChild.mp valid.looked
  exact ⟨isChild.found, (wf.directory found listed).2.1, isChild.live,
    isChild.parent, isChild.name⟩

/-- The destination directory is not moved. -/
theorem outside (valid : table.Validated request info src newParentEntry)
    (wf : table.WellFormed) (directory : newParentEntry.kind = .directory) :
    ¬ table.Below src.inode request.newparent := by
  obtain ⟨found, notRoot, _, _, _⟩ := valid.source wf
  intro below
  by_cases isDir : src.kind = .directory
  · have met := wf.reaches found notRoot valid.parent
      (path_lt_depthBound valid.parent) below
    rw [valid.acyclic isDir] at met
    cases met
  · have same := (wf.below_file found isDir).mp below
    have parent := valid.parent
    rw [same, found] at parent
    obtain rfl := Option.some.inj parent
    exact isDir directory

end Validated

/-! ## The operations for the remote -/

theorem WellFormed.mem_cleanFilesBelow {table : InodeTable}
    (wf : table.WellFormed) {ino : Ino} {entry : InodeEntry}
    (found : table.get ino = some entry) (directory : entry.kind = .directory)
    {file : Path × Hash} :
    file ∈ table.cleanFilesBelow ino ↔
      ∃ lower lowerEntry, table.Below ino lower ∧
        table.get lower = some lowerEntry ∧
        lowerEntry.cleanHash = some file.2 ∧ lowerEntry.fullPath = file.1 := by
  unfold cleanFilesBelow
  rw [List.mem_filterMap]
  constructor
  · rintro ⟨lower, visited, collected⟩
    obtain ⟨lowerEntry, got, hashed⟩ := Option.bind_eq_some_iff.mp collected
    obtain ⟨hash, clean, rfl⟩ := Option.map_eq_some_iff.mp hashed
    exact ⟨lower, lowerEntry, ((wf.mem_childrenBelow found).mp visited).1, got,
      clean, rfl⟩
  · rintro ⟨lower, lowerEntry, below, got, clean, path⟩
    refine ⟨lower, (wf.mem_childrenBelow found).mpr ⟨below, ?_⟩, ?_⟩
    · rintro rfl
      obtain rfl := Option.some.inj (found.symm.trans got)
      simp [InodeEntry.cleanHash, directory] at clean
    · rw [got, Option.bind_some, clean, path]
      rfl

theorem getD_isPrefixOf? {start rest path : Path} :
    (start.isPrefixOf? (start ++ rest)).getD path = rest := by
  induction start with
  | nil => simp [List.isPrefixOf?]
  | cons head tail ih => simpa [List.isPrefixOf?] using ih

/-- A path below the renamed directory keeps its end. -/
theorem append_isPrefixOf? {old new path : Path} (within : Within old path) :
    new ++ (old.isPrefixOf? path).getD path = rebase old new path := by
  obtain ⟨rest, rfl, shape⟩ := within_iff.mp within
  rw [getD_isPrefixOf?, rebase_append shape]

/-- The batch of a rename moves exactly the clean files of the subtree. -/
theorem Validated.mem_remoteOps {table : InodeTable} {request : RenameRequest}
    {info : RenameInfo} {src newParentEntry : InodeEntry}
    (valid : table.Validated request info src newParentEntry)
    (wf : table.WellFormed) {op : BatchOp} :
    op ∈ info.remoteOps ↔
      ∃ lower entry hash, table.Below src.inode lower ∧
        table.get lower = some entry ∧ entry.cleanHash = some hash ∧
        (op = .addFile (rebase info.oldPath info.newFullPath entry.fullPath)
            hash ∨
          op = .deleteFile entry.fullPath) := by
  obtain ⟨found, notRoot, live, _, _⟩ := valid.source wf
  have nonempty := wf.path_ne_nil found notRoot live
  obtain rfl := valid.info
  by_cases directory : src.kind = .directory
  · have files := @WellFormed.mem_cleanFilesBelow table wf _ _ found directory
    simp only [RenameInfo.remoteOps, renameInfo, directory, if_true,
      List.mem_append, List.mem_map]
    constructor
    · rintro (⟨file, listed, rfl⟩ | ⟨file, listed, rfl⟩)
      all_goals
        obtain ⟨lower, entry, below, got, clean, path⟩ := files.mp listed
        refine ⟨lower, entry, file.2, below, got, clean, ?_⟩
      · left
        rw [← path, append_isPrefixOf? (wf.below_within found nonempty below got)]
      · right
        rw [path]
    · rintro ⟨lower, entry, hash, below, got, clean, rfl | rfl⟩
      all_goals
        have listed := (@files (entry.fullPath, hash)).mpr
          ⟨lower, entry, below, got, clean, rfl⟩
      · left
        refine ⟨_, listed, ?_⟩
        rw [append_isPrefixOf? (wf.below_within found nonempty below got)]
      · exact Or.inr ⟨_, listed, rfl⟩
  · have onlySrc : ∀ {lower entry}, table.Below src.inode lower →
        table.get lower = some entry → entry = src := by
      intro lower entry below got
      rw [(wf.below_file found directory).mp below, found] at got
      exact (Option.some.inj got).symm
    have shape : (table.renameInfo request src newParentEntry).remoteOps =
        src.cleanHash.elim [] fun hash =>
          [.addFile (childPath newParentEntry.fullPath request.newname) hash,
            .deleteFile src.fullPath] := by
      unfold RenameInfo.remoteOps renameInfo InodeEntry.cleanHash
      cases kind : src.kind <;> cases dirty : src.isDirty <;>
        cases hash : src.xetHash <;> simp_all
    rw [shape]
    cases clean : src.cleanHash with
    | none =>
        simp only [Option.elim_none, List.not_mem_nil, false_iff]
        rintro ⟨lower, entry, hash, below, got, has, _⟩
        rw [onlySrc below got, clean] at has
        cases has
    | some hash =>
        simp only [Option.elim_some, List.mem_cons, List.not_mem_nil, or_false]
        constructor
        · intro listed
          refine ⟨src.inode, src, hash, .refl, found, clean, ?_⟩
          simpa only [renameInfo, rebase_self] using listed
        · rintro ⟨lower, entry, other, below, got, has, listed⟩
          obtain rfl := onlySrc below got
          obtain rfl := Option.some.inj (clean.symm.trans has)
          simpa only [renameInfo, rebase_self] using listed

end InodeTable

end HfMount.Inode
