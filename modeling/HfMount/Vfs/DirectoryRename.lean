import HfMount.Vfs.Renamed

/-!
# Renaming a directory

The batch of a directory rename moves exactly the clean files of the subtree:
no addition of the batch lands on a path that the batch deletes, because the
new place is outside the old one and the old one is not below the directory
that is replaced.  The local half gives each of these files the same path.
-/

namespace HfMount.Inode

open SlashPath Vfs

namespace InodeTable

/-- What has its path within the path of a live inode is below that inode. -/
theorem WellFormed.below_of_within {table : InodeTable} (wf : table.WellFormed)
    {upper : Ino} {upperEntry : InodeEntry}
    (foundUpper : table.get upper = some upperEntry)
    (liveUpper : upperEntry.isLive = true) (nonempty : upperEntry.fullPath ≠ [])
    {ino : Ino} {entry : InodeEntry} (found : table.get ino = some entry)
    (live : entry.isLive = true)
    (within : Within upperEntry.fullPath entry.fullPath) :
    table.Below upper ino := by
  induction bound : entry.fullPath.length using Nat.strong_induction_on
    generalizing ino entry with
  | _ length ih =>
      by_cases same : entry.fullPath = upperEntry.fullPath
      · obtain rfl := wf.unique found foundUpper live liveUpper same
        exact .refl
      · have notRoot : ino ≠ rootInode := by
          rintro rfl
          obtain ⟨rootEntry, foundRoot, _, rootPath⟩ := wf.root
          obtain rfl := Option.some.inj (foundRoot.symm.trans found)
          have short := within.length_le
          rw [rootPath] at short
          exact nonempty (List.eq_nil_of_length_eq_zero (Nat.le_zero.mp short))
        obtain ⟨parentEntry, foundParent, directory, valid, listed, fullPath⟩ :=
          wf.parent found notRoot live
        have shorter := length_lt_childPath valid parentEntry.fullPath
        rw [← fullPath, bound] at shorter
        have above : Within upperEntry.fullPath parentEntry.fullPath := by
          rw [fullPath] at within same
          exact (within_of_within_child valid within same).resolve_left nonempty
        have upToParent := ih _ shorter foundParent
          (InodeEntry.isLive_of_directory directory) above rfl
        exact upToParent.tail ⟨parentEntry, entry.name, foundParent, listed⟩

variable {table : InodeTable} {request : RenameRequest} {info : RenameInfo}
  {src newParentEntry : InodeEntry}

/-- The renamed directory is not below the place that it is moved to. -/
theorem Validated.not_within_destination
    (valid : table.Validated request info src newParentEntry)
    (wf : table.WellFormed) (directory : src.kind = .directory)
    (newParent : newParentEntry.kind = .directory)
    (name : ValidName request.newname)
    (outside : ¬ Within info.oldPath info.newFullPath) :
    ¬ Within info.newFullPath info.oldPath := by
  obtain ⟨found, _, live, _, _⟩ := valid.source wf
  obtain rfl := valid.info
  intro within
  cases looked : table.lookupChild request.newparent request.newname with
  | none =>
      have free := wf.path_of_free valid.parent newParent name
        ((wf.lookupChild_none valid.parent).mp looked)
      exact wf.outside_free free (childPath_ne_nil name _) found live within
  | some existing =>
      -- Only an empty directory may be replaced, so nothing is below it.
      obtain ⟨parentEntry, foundParent, listed, isChild⟩ :=
        wf.lookupChild.mp looked
      obtain rfl := Option.some.inj (foundParent.symm.trans valid.parent)
      have path : existing.fullPath =
          childPath parentEntry.fullPath request.newname := isChild.fullPath
      have allowed := valid.noConflict existing looked
      have existingDirectory : existing.kind = .directory := by
        unfold destinationConflict at allowed
        rw [directory] at allowed
        split at allowed
        · cases allowed
        · cases kind : existing.kind with
          | directory => rfl
          | file => simp [kind] at allowed
          | symlink => simp [kind] at allowed
      have below := wf.below_of_within isChild.found isChild.live
        (path ▸ childPath_ne_nil name _) found live (by
          rw [path]
          exact within)
      have same := (wf.below_leaf isChild.found
        (conflict_none allowed existingDirectory)).mp below
      have foundExisting : table.get src.inode = some existing :=
        same ▸ isChild.found
      obtain rfl := Option.some.inj (found.symm.trans foundExisting)
      apply outside
      simp only [renameInfo, path]
      exact within_refl _

/-! ## The remote -/

/-- A clean file with a hash in the subtree that the rename moves. -/
structure MovedFile (table : InodeTable) (info : RenameInfo) (ino : Ino)
    (entry : InodeEntry) (hash : Hash) : Prop where
  below : table.Below info.ino ino
  found : table.get ino = some entry
  clean : entry.cleanHash = some hash

theorem Validated.mem_ops
    (valid : table.Validated request info src newParentEntry)
    (wf : table.WellFormed) {op : BatchOp} :
    op ∈ info.remoteOps ↔ ∃ ino entry hash, table.MovedFile info ino entry hash ∧
      (op = .addFile (rebase info.oldPath info.newFullPath entry.fullPath) hash ∨
        op = .deleteFile entry.fullPath) := by
  have sameIno : info.ino = src.inode := by rw [valid.info, renameInfo]
  rw [valid.mem_remoteOps wf]
  constructor
  · rintro ⟨ino, entry, hash, below, found, clean, shape⟩
    exact ⟨ino, entry, hash, ⟨sameIno ▸ below, found, clean⟩, shape⟩
  · rintro ⟨ino, entry, hash, file, shape⟩
    exact ⟨ino, entry, hash, sameIno ▸ file.below, file.found, file.clean, shape⟩

theorem MovedFile.within {ino : Ino} {entry : InodeEntry} {hash : Hash}
    (file : table.MovedFile info ino entry hash)
    (valid : table.Validated request info src newParentEntry)
    (wf : table.WellFormed) : Within info.oldPath entry.fullPath := by
  obtain ⟨found, notRoot, live, _, _⟩ := valid.source wf
  obtain rfl := valid.info
  exact wf.below_within found (wf.path_ne_nil found notRoot live) file.below
    file.found

theorem MovedFile.live {ino : Ino} {entry : InodeEntry} {hash : Hash}
    (file : table.MovedFile info ino entry hash)
    (valid : table.Validated request info src newParentEntry)
    (wf : table.WellFormed) : entry.isLive = true := by
  obtain ⟨found, _, live, _, _⟩ := valid.source wf
  obtain rfl := valid.info
  exact wf.below_live found live file.below file.found

/-- No addition of the batch lands on a path that the batch deletes. -/
theorem MovedFile.apart {ino other : Ino} {entry otherEntry : InodeEntry}
    {hash otherHash : Hash} (file : table.MovedFile info ino entry hash)
    (otherFile : table.MovedFile info other otherEntry otherHash)
    (valid : table.Validated request info src newParentEntry)
    (wf : table.WellFormed) (directory : src.kind = .directory)
    (newParent : newParentEntry.kind = .directory)
    (name : ValidName request.newname)
    (outside : ¬ Within info.oldPath info.newFullPath) :
    otherEntry.fullPath ≠
      rebase info.oldPath info.newFullPath entry.fullPath := by
  intro same
  have inNew := within_rebase (file.within valid wf) info.newFullPath
  have inOld := otherFile.within valid wf
  rw [same] at inOld
  rcases within_total inOld inNew with oldAbove | newAbove
  · exact outside oldAbove
  · exact valid.not_within_destination wf directory newParent name outside
      newAbove

theorem MovedFile.hash_eq {ino other : Ino} {entry otherEntry : InodeEntry}
    {hash otherHash : Hash} (file : table.MovedFile info ino entry hash)
    (otherFile : table.MovedFile info other otherEntry otherHash)
    (valid : table.Validated request info src newParentEntry)
    (wf : table.WellFormed)
    (same : rebase info.oldPath info.newFullPath entry.fullPath =
      rebase info.oldPath info.newFullPath otherEntry.fullPath) :
    otherHash = hash := by
  have path := rebase_injective (file.within valid wf)
    (otherFile.within valid wf) same
  obtain rfl := wf.unique file.found otherFile.found (file.live valid wf)
    (otherFile.live valid wf) path
  obtain rfl := Option.some.inj (file.found.symm.trans otherFile.found)
  exact Option.some.inj (otherFile.clean.symm.trans file.clean)

/-- The batch puts each clean file at its new path and takes it away from the
old one. -/
theorem MovedFile.batch {ino : Ino} {entry : InodeEntry} {hash : Hash}
    (file : table.MovedFile info ino entry hash)
    (valid : table.Validated request info src newParentEntry)
    (wf : table.WellFormed) (directory : src.kind = .directory)
    (newParent : newParentEntry.kind = .directory)
    (name : ValidName request.newname)
    (outside : ¬ Within info.oldPath info.newFullPath) (remote : Remote) :
    batchOperations remote info.remoteOps
        (rebase info.oldPath info.newFullPath entry.fullPath) = some hash ∧
      batchOperations remote info.remoteOps entry.fullPath = none := by
  constructor
  · apply batch_of_added
    · exact (valid.mem_ops wf).mpr ⟨ino, entry, hash, file, Or.inl rfl⟩
    · intro otherHash added
      obtain ⟨other, otherEntry, _, otherFile, shape | shape⟩ :=
        (valid.mem_ops wf).mp added
      · obtain ⟨path, rfl⟩ := BatchOp.addFile.inj shape
        exact file.hash_eq otherFile valid wf path
      · cases shape
    · intro deleted
      obtain ⟨other, otherEntry, _, otherFile, shape | shape⟩ :=
        (valid.mem_ops wf).mp deleted
      · cases shape
      · exact file.apart otherFile valid wf directory newParent name outside
          (BatchOp.deleteFile.inj shape).symm
  · exact batch_of_deleted
      ((valid.mem_ops wf).mpr ⟨ino, entry, hash, file, Or.inr rfl⟩) remote

/-- What is neither an old nor a new path of a clean file is left alone. -/
theorem Validated.batch_elsewhere
    (valid : table.Validated request info src newParentEntry)
    (wf : table.WellFormed) {path : Path}
    (elsewhere : ∀ ino entry hash, table.MovedFile info ino entry hash →
      path ≠ entry.fullPath ∧
        path ≠ rebase info.oldPath info.newFullPath entry.fullPath)
    (remote : Remote) :
    batchOperations remote info.remoteOps path = remote path := by
  apply batch_of_untouched
  · intro hash added
    obtain ⟨ino, entry, _, file, shape | shape⟩ := (valid.mem_ops wf).mp added
    · exact (elsewhere ino entry _ file).2 (BatchOp.addFile.inj shape).1
    · cases shape
  · intro deleted
    obtain ⟨ino, entry, _, file, shape | shape⟩ := (valid.mem_ops wf).mp deleted
    · cases shape
    · exact (elsewhere ino entry _ file).1 (BatchOp.deleteFile.inj shape)

/-! ## The inode table -/

/-- On the table that was validated nothing stands in the way of the local
half. -/
theorem Validated.current
    (valid : table.Validated request info src newParentEntry)
    (wf : table.WellFormed) (newParent : newParentEntry.kind = .directory)
    (name : ValidName request.newname) :
    table.Current info request src newParentEntry := by
  obtain ⟨found, _, live, _, _⟩ := valid.source wf
  obtain rfl := valid.info
  refine ⟨valid, newParent, name, rfl, ?_, rfl, rfl⟩
  intro other mapped
  have own := wf.path.mpr ⟨src, found, live, rfl⟩
  exact Option.some.inj (mapped.symm.trans own)

theorem Validated.renameApplyLocal_ok
    (valid : table.Validated request info src newParentEntry)
    (wf : table.WellFormed) (now : Time) :
    ∃ dropped after,
      table.renameApplyLocal info request now = .ok (dropped, after) := by
  obtain ⟨found, _, _, _, _⟩ := valid.source wf
  obtain rfl := valid.info
  unfold renameApplyLocal
  rw [show (table.renameInfo request src newParentEntry).ino = src.inode from
    rfl, found]
  cases looked : table.lookupChild request.newparent request.newname with
  | none => exact ⟨_, _, rfl⟩
  | some existing =>
      dsimp only
      split
      · exact ⟨_, _, rfl⟩
      · rw [show (table.renameInfo request src newParentEntry).kind = src.kind
          from rfl, valid.noConflict existing looked]
        exact ⟨_, _, rfl⟩

/-- Moving the source moves the path of everything below it. -/
theorem Movable.path_moveRenamed {entry newEntry : InodeEntry}
    (movable : table.Movable info request entry newEntry)
    (wf : table.WellFormed) (now : Time) {lower : Ino}
    {lowerEntry : InodeEntry} (below : table.Below info.ino lower)
    (found : table.get lower = some lowerEntry) :
    ∃ moved, (table.moveRenamed info request now).get lower = some moved ∧
      moved.fullPath =
        rebase entry.fullPath info.newFullPath lowerEntry.fullPath ∧
      (table.moveRenamed info request now).pathToInode moved.fullPath =
        some lower := by
  obtain ⟨_, recorded, moved, recordedDef, _, _, isMoved, result⟩ :=
    movable.moveRenamed wf now
  have similar : table.Similar recorded :=
    (recordedDef ▸ table.owing_record info : Corresponding InodeEntry.Owing
      table recorded).mono fun _ _ same => same.sameNode
  have touched := similar_touchRenamed moved info request now
  obtain ⟨noted, foundNoted, sameNoted⟩ := similar.forward found
  obtain ⟨target, foundTarget, _, whenBelow, _⟩ := isMoved.kept foundNoted
  have belowNoted : recorded.Below info.ino lower :=
    (Corresponding.below similar).mpr below
  obtain ⟨last, foundLast, sameLast⟩ := touched.forward foundTarget
  have path : last.fullPath =
      rebase entry.fullPath info.newFullPath lowerEntry.fullPath := by
    rw [sameLast.fullPath, whenBelow belowNoted, sameNoted.fullPath]
  rw [result]
  refine ⟨last, foundLast, path, ?_⟩
  rw [touched.path, path]
  exact isMoved.path.mpr (Or.inl ⟨belowNoted, noted, foundNoted, by
    rw [sameNoted.fullPath]⟩)

/-- What is below an inode stays below it when nothing there goes. -/
theorem Pruned.below_of_stays {before after : InodeTable} {gone : Ino → Prop}
    (pruned : before.Pruned after gone) {upper lower : Ino}
    (stays : ∀ {ino}, before.Below upper ino → ¬ gone ino)
    (below : before.Below upper lower) : after.Below upper lower := by
  induction below with
  | refl => exact .refl
  | tail up step ih =>
      rename_i middle last
      obtain ⟨dirEntry, childName, foundDir, listed⟩ := step
      obtain ⟨kept, foundKept, _, _, _, children⟩ :=
        pruned.kept (stays up) foundDir
      have lastStays := stays (up.tail ⟨dirEntry, childName, foundDir, listed⟩)
      exact ih.tail
        ⟨kept, childName, foundKept, (children _).mpr ⟨listed, lastStays⟩⟩

/-- The inode that is replaced is not below the source. -/
theorem Validated.replaced_not_below
    (valid : table.Validated request info src newParentEntry)
    (wf : table.WellFormed) (newParent : newParentEntry.kind = .directory)
    {existing : InodeEntry}
    (looked : table.lookupChild request.newparent request.newname =
      some existing)
    (different : existing.inode ≠ src.inode) :
    ¬ table.Below src.inode existing.inode := by
  intro below
  obtain ⟨parentEntry, _, _, isChild⟩ := wf.lookupChild.mp looked
  rcases Relation.ReflTransGen.cases_tail below with same | ⟨dir, up, step⟩
  · exact different same
  · obtain ⟨dirEntry, foundDir, _⟩ := wf.below (valid.source wf).1 up
    obtain ⟨_, childEntry, _, _, isListed⟩ := wf.lists foundDir step
    obtain rfl := Option.some.inj (isListed.found.symm.trans isChild.found)
    rw [← isListed.parent, isChild.parent] at up
    exact valid.outside wf newParent up

/-- After the local half each inode below the source has its new path. -/
theorem Validated.path_applied
    (valid : table.Validated request info src newParentEntry)
    (wf : table.WellFormed) (newParent : newParentEntry.kind = .directory)
    (name : ValidName request.newname)
    (outside : ¬ Within info.oldPath info.newFullPath) {now : Time}
    {dropped : Option Ino} {after : InodeTable}
    (ok : table.renameApplyLocal info request now = .ok (dropped, after))
    {lower : Ino} {lowerEntry : InodeEntry}
    (below : table.Below info.ino lower)
    (found : table.get lower = some lowerEntry) :
    ∃ moved, after.get lower = some moved ∧
      moved.fullPath =
        rebase info.oldPath info.newFullPath lowerEntry.fullPath ∧
      after.pathToInode moved.fullPath = some lower := by
  have current := valid.current wf newParent name
  have foundSrc : table.get info.ino = some src :=
    current.ino ▸ (valid.source wf).1
  have oldPath : info.oldPath = src.fullPath := by rw [valid.info, renameInfo]
  cases current.applied wf ok with
  | @sameInode existing looked same =>
      -- The destination would be the source itself, with one path.
      obtain ⟨parentEntry, foundParent, _, isChild⟩ := wf.lookupChild.mp looked
      obtain rfl := Option.some.inj (foundParent.symm.trans valid.parent)
      have foundExisting : table.get info.ino = some existing :=
        same ▸ isChild.found
      obtain rfl := Option.some.inj (foundSrc.symm.trans foundExisting)
      have fullPath : src.fullPath =
          childPath parentEntry.fullPath request.newname := isChild.fullPath
      rw [← current.newFullPath, ← oldPath] at fullPath
      exact absurd (fullPath ▸ within_refl info.oldPath) outside
  | @free entry newEntry looked movable =>
      obtain rfl := Option.some.inj (foundSrc.symm.trans movable.found)
      rw [oldPath]
      exact movable.path_moveRenamed wf now below found
  | @replaced existing entry newEntry looked different pruned movable =>
      have stays : ∀ {ino}, table.Below info.ino ino →
          ino ≠ existing.inode := by
        rintro ino isBelow rfl
        exact valid.replaced_not_below wf newParent looked
          (current.ino ▸ different) (current.ino ▸ isBelow)
      obtain ⟨keptSrc, foundKeptSrc, placeSrc, _⟩ :=
        pruned.kept (stays .refl) foundSrc
      obtain rfl := Option.some.inj (foundKeptSrc.symm.trans movable.found)
      obtain ⟨keptLower, foundLower, placeLower, _⟩ :=
        pruned.kept (stays below) found
      have moved := movable.path_moveRenamed (wf.pruned pruned) now
        (pruned.below_of_stays stays below) foundLower
      rw [placeSrc.fullPath, placeLower.fullPath, ← oldPath] at moved
      exact moved

/-- A directory rename moves exactly the clean files of the subtree on the
remote, each with its hash to the path with the old directory path replaced by
the new one, and the table has them at the same paths. -/
theorem rename_moves_subtree (wf : table.WellFormed)
    (validated : table.renameValidate request = .ok info)
    (directory : info.kind = .directory)
    (newParent : table.isDirectory request.newparent = true)
    (name : ValidName request.newname)
    (outside : ¬ Within info.oldPath info.newFullPath) {remote : Remote}
    (agrees : ∀ ino entry hash, table.MovedFile info ino entry hash →
      remote entry.fullPath = some hash) (now : Time) :
    (∀ ino entry hash, table.MovedFile info ino entry hash →
      batchOperations remote info.remoteOps
          (info.newFullPath ++ entry.fullPath.drop info.oldPath.length) =
        remote entry.fullPath ∧
      batchOperations remote info.remoteOps
          (info.newFullPath ++ entry.fullPath.drop info.oldPath.length) =
        some hash ∧
      batchOperations remote info.remoteOps entry.fullPath = none) ∧
    (∀ path,
      (∀ ino entry hash, table.MovedFile info ino entry hash →
        path ≠ entry.fullPath ∧ path ≠
          info.newFullPath ++ entry.fullPath.drop info.oldPath.length) →
      batchOperations remote info.remoteOps path = remote path) ∧
    ∃ dropped after,
      table.renameApplyLocal info request now = .ok (dropped, after) ∧
      ∀ ino entry hash, table.MovedFile info ino entry hash →
        ∃ moved, after.get ino = some moved ∧
          moved.fullPath =
            info.newFullPath ++ entry.fullPath.drop info.oldPath.length ∧
          after.pathToInode moved.fullPath = some ino := by
  obtain ⟨src, newParentEntry, valid⟩ := renameValidate_eq_ok validated
  have sourceDirectory : src.kind = .directory := by
    rw [← directory, valid.info, renameInfo]
  have newParentDirectory : newParentEntry.kind = .directory := by
    simpa [isDirectory, valid.parent] using newParent
  have replaced : ∀ {ino entry hash}, table.MovedFile info ino entry hash →
      rebase info.oldPath info.newFullPath entry.fullPath =
        info.newFullPath ++ entry.fullPath.drop info.oldPath.length :=
    fun file => rebase_of_within (file.within valid wf) _
  refine ⟨?_, ?_, ?_⟩
  · intro ino entry hash file
    obtain ⟨added, deleted⟩ := file.batch valid wf sourceDirectory
      newParentDirectory name outside remote
    rw [← replaced file, agrees ino entry hash file]
    exact ⟨added, added, deleted⟩
  · intro path elsewhere
    apply valid.batch_elsewhere wf
    intro ino entry hash file
    rw [replaced file]
    exact elsewhere ino entry hash file
  · obtain ⟨dropped, after, ok⟩ := valid.renameApplyLocal_ok wf now
    refine ⟨dropped, after, ok, ?_⟩
    intro ino entry hash file
    rw [← replaced file]
    exact valid.path_applied wf newParentDirectory name outside ok file.below
      file.found

/-- The clean file `d/x` in a directory. -/
def fileInDirectory : InodeTable :=
  let dir := (new.insert rootInode ['d'] ['d'] .directory 0 0 none 493 0 0 0).2
  (dir.insert 2 ['x'] ['d', '/', 'x'] .file 3 0 (some ['h']) 420 0 0 0).2

theorem wellFormed_fileInDirectory : fileInDirectory.WellFormed := by
  have validDir : ValidName ['d'] := by decide
  have validFile : ValidName ['x'] := by decide
  have root : new.get rootInode = some rootEntry := rfl
  have dir := wellFormed_new.insert root rfl validDir rfl .directory 0 0 none 493
    0 0 0
  have found : (new.insert rootInode ['d'] ['d'] .directory 0 0 none 493 0 0
      0).2.get 2 = some _ := rfl
  exact dir.insert found rfl validFile rfl .file 3 0 (some ['h']) 420 0 0 0

/-- Moving `d` to `e` moves its file. -/
theorem rename_moves_subtree_one_file :
    batchOperations (Function.update (fun _ => none) ['d', '/', 'x']
        (some ['h']))
      [.addFile ['e', '/', 'x'] ['h'], .deleteFile ['d', '/', 'x']]
      ['e', '/', 'x'] = some ['h'] := by
  have agrees : ∀ entry ∈ fileInDirectory.values, ∀ hash ∈ entry.cleanHash,
      Function.update (fun _ => none) ['d', '/', 'x'] (some ['h'])
        entry.fullPath = some hash := by decide
  obtain ⟨moved, _⟩ := @rename_moves_subtree fileInDirectory
    ⟨rootInode, ['d'], rootInode, ['e'], false⟩ _ wellFormed_fileInDirectory rfl
    rfl (by decide) (by decide) (by decide) _
    (fun ino entry hash file =>
      agrees entry (mem_values.mpr ⟨ino, file.found⟩) hash file.clean) 0
  exact (moved 3 _ ['h'] ⟨.single ⟨_, ['x'], rfl, by decide⟩, rfl, rfl⟩).2.1

end InodeTable

end HfMount.Inode
