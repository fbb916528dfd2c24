import HfMount.Flush.StagedFile
import HfMount.Streaming.Channel
import Mathlib.Data.List.Dedup

/-!
# A batch of dirty files

`flush_batch` takes the requested inodes, the last request of each, and makes a
snapshot of those that are due.  It uploads the staging files in chunks, clears
the files whose content has not changed, and commits the others to the Hub in
one request, with every addition before every deletion.
-/

namespace HfMount.Flush

open SlashPath Inode Vfs Streaming

/-- The requests are walked backwards, so the last one of an inode counts. -/
def dedupPending (pending : List Ino) : List Ino :=
  (pending.reverse.foldl (fun kept ino =>
    if ino ∈ kept then kept else kept ++ [ino]) []).reverse

theorem dedupPending_eq (pending : List Ino) :
    dedupPending pending = pending.dedup := by
  unfold dedupPending
  induction pending with
  | nil => rfl
  | cons ino pending ih =>
      rw [List.reverse_cons, List.foldl_append, List.foldl_cons, List.foldl_nil,
        List.dedup_cons', ← ih]
      simp only [List.mem_reverse]
      split
      · rfl
      · rw [List.reverse_append]
        rfl

/-! ## The snapshot -/

/-- What the snapshot makes of a requested inode. -/
inductive Examined where
  | skipped
  | missing (message : List Char)
  | due (item : FlushItem)
  deriving DecidableEq

namespace Examined

def item : Examined → Option FlushItem
  | .due item => some item
  | .skipped | .missing _ => none

def message : Examined → Option (List Char)
  | .missing message => some message
  | .skipped | .due _ => none

end Examined

def stagingMissing (fullPath : Path) : List Char :=
  "staging file missing for ".toList ++ fullPath

def uploadFailed (error : List Char) : List Char :=
  "upload failed: ".toList ++ error

def commitFailed (error : List Char) : List Char :=
  "commit failed: ".toList ++ error

def examine (table : InodeTable) (staged : Ino → Bool) (ino : Ino) :
    Examined :=
  match table.get ino with
  | none => .skipped
  | some entry =>
      if entry.nlink = 0 then .skipped
      else if !entry.isDirty then .skipped
      else if !staged ino then .missing (stagingMissing entry.fullPath)
      else .due
        { ino
          fullPath := entry.fullPath
          pendingDeletes := entry.pendingDeletes
          dirtyGeneration := entry.dirtyGeneration
          prevXetHash := entry.xetHash }

/-- The items to flush, in the order of the requests. -/
def toFlush (table : InodeTable) (staged : Ino → Bool) (inos : List Ino) :
    List FlushItem :=
  inos.filterMap fun ino => (examine table staged ino).item

/-- Why the last flush of an inode has failed, until someone asks. -/
abbrev FlushErrors := Ino → Option (List Char)

def recordMissing (table : InodeTable) (staged : Ino → Bool)
    (errors : FlushErrors) (inos : List Ino) : FlushErrors :=
  inos.foldl (fun errors ino =>
    match (examine table staged ino).message with
    | some message => Function.update errors ino (some message)
    | none => errors) errors

def recordErrors (errors : FlushErrors) (items : List FlushItem)
    (message : List Char) : FlushErrors :=
  items.foldl (fun errors item =>
    Function.update errors item.ino (some message)) errors

/-! ## The commit -/

/-- An item with the answer of its upload. -/
abbrev Upload := FlushItem × XetFileInfo

def Upload.isUnchanged (upload : Upload) : Bool :=
  upload.1.unchanged upload.2.hash

/-- `UPLOAD_CHUNK_SIZE`. -/
def uploadChunkSize : Nat := 500

def unchangedUploads (uploads : List Upload) : List Upload :=
  uploads.filter (·.isUnchanged)

def changedUploads (uploads : List Upload) : List Upload :=
  uploads.filter fun upload => !upload.isUnchanged

/-- The Hub wants all additions before all deletions. -/
def batchOps (uploads : List Upload) : List BatchOp :=
  ((changedUploads uploads).map fun upload =>
    .addFile upload.1.fullPath upload.2.hash) ++
  (changedUploads uploads).flatMap fun upload =>
    upload.1.pendingDeletes.map .deleteFile

def applyUpload (now : Time) (table : InodeTable) (upload : Upload) :
    InodeTable :=
  table.modify upload.1.ino (·.applyCommit upload.2.hash upload.2.fileSize
    upload.1.dirtyGeneration now)

def applyUploads (table : InodeTable) (uploads : List Upload) (now : Time) :
    InodeTable :=
  uploads.foldl (applyUpload now) table

/-! ## What the snapshot takes -/

section

variable {table : InodeTable} {staged : Ino → Bool}

/-- It is the snapshot of the single inode, under the key of the table. -/
theorem examine_item (ino : Ino) :
    (examine table staged ino).item =
      ((table.get ino).bind (snapshotItem · (staged ino))).map fun item =>
        { item with ino } := by
  unfold examine
  cases table.get ino with
  | none => rfl
  | some entry =>
      simp only [Option.bind_some, snapshotItem]
      split
      · rfl
      split
      · rfl
      split <;> rfl

/-- Where an inode that was asked for stands. -/
theorem examine_cases (ino : Ino) :
    (examine table staged ino = .skipped ∧ ∀ entry, table.get ino = some entry →
      0 < entry.nlink → entry.isDirty = false) ∨
    ∃ entry, table.get ino = some entry ∧ 0 < entry.nlink ∧
      entry.isDirty = true ∧
      ((staged ino = false ∧ examine table staged ino =
          .missing (stagingMissing entry.fullPath)) ∨
        (staged ino = true ∧ examine table staged ino = .due
          { ino
            fullPath := entry.fullPath
            pendingDeletes := entry.pendingDeletes
            dirtyGeneration := entry.dirtyGeneration
            prevXetHash := entry.xetHash })) := by
  unfold examine
  cases found : table.get ino with
  | none => exact Or.inl ⟨rfl, fun entry isSome => by cases isSome⟩
  | some entry =>
      dsimp only
      split <;> rename_i unlinked
      · refine Or.inl ⟨rfl, ?_⟩
        rintro _ ⟨⟩ linked
        omega
      split <;> rename_i clean
      · refine Or.inl ⟨rfl, ?_⟩
        rintro _ ⟨⟩ _
        simpa using clean
      refine Or.inr ⟨entry, rfl, Nat.pos_of_ne_zero unlinked,
        by simpa using clean, ?_⟩
      cases staged ino with
      | false => exact Or.inl ⟨rfl, rfl⟩
      | true => exact Or.inr ⟨rfl, rfl⟩

theorem ino_of_examine {ino : Ino} {item : FlushItem}
    (due : (examine table staged ino).item = some item) : item.ino = ino := by
  rw [examine_item] at due
  obtain ⟨_, _, rfl⟩ := Option.map_eq_some_iff.mp due
  rfl

theorem mem_toFlush_of_due {inos : List Ino} {ino : Ino} {item : FlushItem}
    (requested : ino ∈ inos) (due : examine table staged ino = .due item) :
    item ∈ toFlush table staged inos :=
  List.mem_filterMap.mpr ⟨ino, requested, congrArg Examined.item due⟩

/-- The items stand for different inodes. -/
theorem nodup_toFlush {inos : List Ino} (nodup : inos.Nodup) :
    ((toFlush table staged inos).map (·.ino)).Nodup := by
  have inosOf : (toFlush table staged inos).map (·.ino) =
      inos.filter fun ino => (examine table staged ino).item.isSome := by
    unfold toFlush
    induction inos with
    | nil => rfl
    | cons ino inos ih =>
        rw [List.filterMap_cons, List.filter_cons,
          ← ih (List.nodup_cons.mp nodup).2]
        cases due : (examine table staged ino).item with
        | none => rfl
        | some item => simp [ino_of_examine due]
  rw [inosOf]
  exact nodup.filter _

end

/-! ## The errors -/

theorem recordErrors_apply (errors : FlushErrors) (items : List FlushItem)
    (message : List Char) (ino : Ino) :
    recordErrors errors items message ino =
      if ino ∈ items.map (·.ino) then some message else errors ino := by
  unfold recordErrors
  induction items generalizing errors with
  | nil => rfl
  | cons item items ih =>
      rw [List.foldl_cons, ih, List.map_cons]
      by_cases later : ino ∈ items.map (·.ino)
      · rw [if_pos later, if_pos (List.mem_cons_of_mem _ later)]
      by_cases here : ino = item.ino
      · subst here
        rw [if_neg later, if_pos List.mem_cons_self, Function.update_self]
      · rw [if_neg later, Function.update_of_ne here, if_neg]
        rintro (_ | ⟨_, inTail⟩)
        · exact here rfl
        · exact later inTail

theorem recordMissing_apply (table : InodeTable) (staged : Ino → Bool)
    (errors : FlushErrors) (inos : List Ino) (ino : Ino) :
    recordMissing table staged errors inos ino =
      if ino ∈ inos then
        (examine table staged ino).message.or (errors ino)
      else errors ino := by
  unfold recordMissing
  induction inos generalizing errors with
  | nil => rfl
  | cons first inos ih =>
      rw [List.foldl_cons, ih]
      cases missing : (examine table staged first).message with
      | none =>
          dsimp only
          by_cases here : ino = first
          · subst here
            simp [missing]
          · simp [here]
      | some message =>
          dsimp only
          by_cases here : ino = first
          · subst here
            simp [missing]
          · simp [here]

/-! ## The commits -/

/-- The commits leave alone what is no item of theirs. -/
theorem get_applyUploads_of_not_mem (table : InodeTable) {uploads : List Upload}
    {ino : Ino} (absent : ∀ upload ∈ uploads, upload.1.ino ≠ ino)
    (now : Time) :
    (applyUploads table uploads now).get ino = table.get ino := by
  unfold applyUploads
  induction uploads generalizing table with
  | nil => rfl
  | cons upload uploads ih =>
      rw [List.foldl_cons,
        ih _ fun other member => absent other (List.mem_cons_of_mem _ member)]
      exact InodeTable.get_modify_of_ne _ (absent upload List.mem_cons_self).symm
        _

/-- Each item is committed once. -/
theorem get_applyUploads_of_mem (table : InodeTable) {uploads : List Upload}
    (nodup : (uploads.map (·.1.ino)).Nodup) {upload : Upload}
    (member : upload ∈ uploads) (now : Time) :
    (applyUploads table uploads now).get upload.1.ino =
      (table.get upload.1.ino).map (·.applyCommit upload.2.hash
        upload.2.fileSize upload.1.dirtyGeneration now) := by
  induction uploads generalizing table with
  | nil => cases member
  | cons first uploads ih =>
      obtain ⟨apart, rest⟩ := List.nodup_cons.mp nodup
      have others : applyUploads table (first :: uploads) now =
          applyUploads (applyUpload now table first) uploads now := rfl
      rw [others]
      rcases List.mem_cons.mp member with rfl | later
      · rw [get_applyUploads_of_not_mem, applyUpload,
          InodeTable.get_modify, if_pos rfl]
        intro other inTail same
        exact apart (List.mem_map.mpr ⟨other, inTail, same⟩)
      · rw [ih _ rest later]
        congr 1
        apply InodeTable.get_modify_of_ne
        intro same
        exact apart (List.mem_map.mpr ⟨upload, later, same⟩)

end HfMount.Flush
