import HfMount.Poll.Reachable

/-!
# The table without the removed files

Removals that hit their own files take these out of their directories, and
leave every other file and every directory as it is.
-/

namespace HfMount.Poll

open SlashPath Inode

/-- `after` is `before` without the files `gone`; those that are still open are
left without a name. -/
structure Cleared (before after : InodeTable) (gone : Ino → Prop) : Prop where
  file : ∀ ino entry, ¬ gone ino → before.get ino = some entry →
    entry.kind ≠ .directory → after.get ino = some entry
  directory : ∀ ino entry, before.get ino = some entry →
    entry.kind = .directory → ∃ other, after.get ino = some other ∧
      entry.SamePlace other ∧
      other.childrenLoadedAt = entry.childrenLoadedAt ∧
      ∀ child, child ∈ other.children ↔
        child ∈ entry.children ∧ ¬ gone child.ino
  path : ∀ path ino, after.pathToInode path = some ino ↔
    before.pathToInode path = some ino ∧ ¬ gone ino

section

variable {table before after : InodeTable} {ino : Ino}

theorem cleared_refl (table : InodeTable) :
    Cleared table table fun _ => False := by
  refine ⟨fun _ _ _ found _ => found, ?_, ?_⟩
  · intro ino entry found _
    exact ⟨entry, found, .refl entry, rfl, by simp⟩
  · simp

theorem Cleared.trans {middle : InodeTable} {first second : Ino → Prop}
    (left : Cleared before middle first)
    (right : Cleared middle after second) :
    Cleared before after fun ino => first ino ∨ second ino := by
  constructor
  · intro ino entry kept found file
    rw [not_or] at kept
    exact right.file ino entry kept.2 (left.file ino entry kept.1 found file)
      file
  · intro ino entry found directory
    obtain ⟨inner, foundInner, placeLeft, loadedLeft, childrenLeft⟩ :=
      left.directory ino entry found directory
    obtain ⟨other, got, placeRight, loadedRight, childrenRight⟩ :=
      right.directory ino inner foundInner (placeLeft.kind.trans directory)
    refine ⟨other, got, placeLeft.trans placeRight,
      loadedRight.trans loadedLeft, ?_⟩
    intro child
    rw [childrenRight, childrenLeft, not_or, and_assoc]
  · intro path ino
    rw [right.path, left.path, not_or, and_assoc]

/-- A removal drops or unlinks no other file. -/
theorem file_removeRemoteFile (wf : table.WellFormed)
    (isFile : IsFile table ino)
    (own : ∀ target, deletionTarget table ino = some target → target = ino)
    {other : Ino} {entry : InodeEntry} (distinct : other ≠ ino)
    (found : table.get other = some entry) (file : entry.kind ≠ .directory)
    (now : Time) :
    (removeRemoteFile table ino now).2.1.get other = some entry := by
  have noChildren := wf.children_of_file found file
  unfold removeRemoteFile
  split
  · exact found
  rename_i removed foundRemoved
  split <;> rename_i clean
  · exact found
  unfold deletionTarget at own
  rw [foundRemoved, Option.bind_some, if_neg clean] at own
  dsimp only
  unfold InodeTable.hasOpenHandles
  rw [foundRemoved, Option.any_some]
  split <;> rename_i opened
  · rw [if_pos opened] at own
    cases named : slot table removed.parent removed.name with
    | none => rw [unlinkOne_of_free named, found]
    | some target =>
        obtain rfl := own target named
        obtain ⟨dir, foundDir, atName⟩ := Option.bind_eq_some_iff.mp named
        have listed := ((wf.indexed foundDir).index _ _).mp atName
        have apart : other ≠ removed.parent := by
          rintro rfl
          obtain rfl := Option.some.inj (found.symm.trans foundDir)
          rw [noChildren] at listed
          cases listed
        simp only [InodeTable.unlinkOne, foundDir, atName]
        split
        · rw [InodeTable.get_removePath,
            InodeTable.get_modify_of_ne _ apart, found]
        · rw [InodeTable.get_put_of_ne _ distinct, InodeTable.get_removePath,
            InodeTable.get_modify_of_ne _ apart, found]
  · have leaf := wf.children_of_file foundRemoved
      (by rw [isFile removed foundRemoved]; decide)
    rw [InodeTable.remove_of_leaf foundRemoved leaf, isFile removed foundRemoved]
    have still : ((table.erase ino).removePath removed.fullPath).get other =
        some entry := by
      rw [InodeTable.get_removePath, InodeTable.get_erase, if_neg distinct,
        found]
    have unlisted : entry.removeChildByIno ino = entry := by
      simp [InodeEntry.removeChildByIno, noChildren]
    unfold InodeTable.detachFromParent
    rw [InodeTable.get_modify]
    split <;> rename_i isParent
    · rw [← isParent, still]
      simp [unlisted]
    · exact still

/-- A clean file that has nothing to remove is not in the tree. -/
theorem unplaced_of_kept (wf : table.WellFormed) (isFile : IsFile table ino)
    (clean : ∀ entry, table.get ino = some entry → entry.isDirty = false)
    {now : Time} (same : (removeRemoteFile table ino now).2.1 = table)
    {entry : InodeEntry} (found : table.get ino = some entry) :
    entry.isLive = false := by
  by_contra live
  have isLive : entry.isLive = true := by simpa using live
  have notRoot := wf.ne_root_of_file found
    (by rw [isFile entry found]; decide)
  have hit : ∃ target, deletionTarget table ino = some target := by
    unfold deletionTarget
    rw [found, Option.bind_some, clean entry found]
    simp only [Bool.false_eq_true, if_false]
    split
    · obtain ⟨parentEntry, foundParent, _, _, listed, _⟩ :=
        wf.parent found notRoot isLive
      exact ⟨ino, Option.bind_eq_some_iff.mpr ⟨parentEntry, foundParent,
        ((wf.indexed foundParent).index entry.name ino).mpr listed⟩⟩
    · exact ⟨ino, wf.path.mpr ⟨entry, found, isLive, rfl⟩⟩
  obtain ⟨target, isTarget⟩ := hit
  rcases removeRemoteFile_hits (tidy_of_wellFormed wf) isFile isTarget now with
    ⟨dir, name, had, lost⟩ | ⟨path, had, lost⟩
  · rw [same] at lost
    exact lost had
  · rw [same] at lost
    exact lost had

/-- An inode that is not in the tree is in no directory and at no path. -/
theorem cleared_of_unplaced (wf : table.WellFormed)
    (unplaced : ∀ entry, table.get ino = some entry → entry.isLive = false) :
    Cleared table table (· = ino) := by
  refine ⟨fun _ _ _ found _ => found, ?_, ?_⟩
  · intro dir entry found _
    refine ⟨entry, found, .refl entry, rfl, ?_⟩
    intro child
    constructor
    · intro listed
      refine ⟨listed, ?_⟩
      rintro rfl
      obtain ⟨childEntry, isChild⟩ := wf.child found listed
      have live := isChild.live
      rw [unplaced childEntry isChild.found] at live
      cases live
    · exact And.left
  · intro path other
    constructor
    · intro mapped
      refine ⟨mapped, ?_⟩
      rintro rfl
      obtain ⟨entry, found, live, _⟩ := wf.path.mp mapped
      rw [unplaced entry found] at live
      cases live
    · exact And.left

theorem cleared_of_pruned (pruned : table.Pruned after (· = ino))
    (file : ∀ other entry, other ≠ ino → table.get other = some entry →
      entry.kind ≠ .directory → after.get other = some entry)
    (isFile : IsFile table ino) : Cleared table after (· = ino) := by
  refine ⟨file, ?_, fun path other => pruned.path⟩
  intro dir entry found directory
  have kept : dir ≠ ino := by
    rintro rfl
    rw [isFile entry found] at directory
    cases directory
  obtain ⟨other, got, place, content, _, children⟩ := pruned.kept kept found
  exact ⟨other, got, place, content.childrenLoadedAt, children⟩

theorem cleared_removeRemoteFile (wf : table.WellFormed)
    (isFile : IsFile table ino)
    (clean : ∀ entry, table.get ino = some entry → entry.isDirty = false)
    (own : ∀ target, deletionTarget table ino = some target → target = ino)
    (now : Time) :
    Cleared table (removeRemoteFile table ino now).2.1 (· = ino) := by
  have file : ∀ other entry, other ≠ ino → table.get other = some entry →
      entry.kind ≠ .directory →
      (removeRemoteFile table ino now).2.1.get other = some entry :=
    fun other entry distinct found notDirectory =>
      file_removeRemoteFile wf isFile own distinct found notDirectory now
  rcases removeRemoteFile_cases isFile own now with
    same | ⟨entry, found, notDirectory, ⟨same, looked⟩ | ⟨same, ownPath⟩⟩
  · rw [same]
    exact cleared_of_unplaced wf fun entry found =>
      unplaced_of_kept wf isFile clean same found
  · have pruned := InodeTable.pruned_unlinkOne wf looked notDirectory now
    rw [(wf.key found).1] at pruned
    rw [same] at file ⊢
    exact cleared_of_pruned pruned file isFile
  · rw [same] at file ⊢
    rcases InodeTable.remove_cases wf found ownPath with live |
      ⟨_, orphan, erased⟩
    · have pruned := InodeTable.pruned_remove wf found
        (wf.ne_root_of_file found notDirectory) live
      have alone : table.Below ino = (· = ino) := by
        funext lower
        exact propext (wf.below_file found notDirectory)
      rw [alone] at pruned
      exact cleared_of_pruned pruned file isFile
    · have unplaced : ∀ other, table.get ino = some other →
          other.isLive = false := by
        intro other foundOther
        obtain rfl := Option.some.inj (found.symm.trans foundOther)
        simp [InodeEntry.isLive, notDirectory, orphan]
      have cleared := cleared_of_unplaced wf unplaced
      refine ⟨file, ?_, ?_⟩
      · intro dir dirEntry foundDir directory
        have kept : dir ≠ ino := by
          rintro rfl
          rw [isFile dirEntry foundDir] at directory
          cases directory
        obtain ⟨other, got, links⟩ := erased.forward
          (by rw [InodeTable.get_erase, if_neg kept]; exact foundDir)
        obtain ⟨old, foundOld, narrow⟩ :=
          (shrunk_remove table ino).entry got
        obtain rfl := Option.some.inj (foundDir.symm.trans foundOld)
        obtain ⟨_, again, _, _, children⟩ :=
          cleared.directory dir dirEntry foundDir directory
        obtain rfl := Option.some.inj (foundDir.symm.trans again)
        refine ⟨other, got, links.toSamePlace, narrow.childrenLoadedAt, ?_⟩
        rw [links.children]
        exact children
      · rw [erased.path]
        exact cleared.path

theorem Cleared.mono {gone others : Ino → Prop}
    (cleared : Cleared before after gone)
    (same : ∀ ino, gone ino ↔ others ino) : Cleared before after others := by
  have equal : gone = others := funext fun ino => propext (same ino)
  rwa [← equal]

/-- The removals of a poll take out exactly the files that they name. -/
theorem cleared_removeAll (now : Time) {inos : List Ino}
    {table : InodeTable} (wf : table.WellFormed)
    (files : ∀ ino ∈ inos, IsFile table ino)
    (clean : ∀ ino ∈ inos, ∀ entry, table.get ino = some entry →
      entry.isDirty = false)
    (own : ∀ ino ∈ inos, ∀ target,
      deletionTarget table ino = some target → target = ino) :
    Cleared table (removeAll now inos table) (· ∈ inos) := by
  induction inos generalizing table with
  | nil => exact (cleared_refl table).mono (by simp)
  | cons first inos ih =>
      have firstFile := files first List.mem_cons_self
      have firstOwn := own first List.mem_cons_self
      have shrunk := shrunk_removeRemoteFile table first now
      have head := cleared_removeRemoteFile wf firstFile
        (clean first List.mem_cons_self) firstOwn now
      have tail := ih (wellFormed_removeRemoteFile wf firstFile firstOwn now)
        (fun ino listed =>
          (files ino (List.mem_cons_of_mem _ listed)).shrunk shrunk)
        (fun ino listed entry found => by
          obtain ⟨old, foundOld, narrow⟩ := shrunk.entry found
          rw [narrow.isDirty]
          exact clean ino (List.mem_cons_of_mem _ listed) old foundOld)
        fun ino listed target hit =>
          own ino (List.mem_cons_of_mem _ listed) target
            (shrunk.deletionTarget hit)
      exact (head.trans tail).mono fun ino => List.mem_cons.symm

end

end HfMount.Poll
