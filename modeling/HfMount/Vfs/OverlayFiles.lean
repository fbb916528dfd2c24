import HfMount.Vfs.Overlay

/-!
# Which file an overlay handle has

What the overlay needs to know about an inode is its path, whether it has a
link, whether it is dirty and how often it is open.  Every call changes this
for one or two inodes, together with the backing directory and the handles.
-/

namespace HfMount.Vfs.Overlay

open SlashPath Inode

/-- What the overlay needs to know about an inode that is no directory. -/
structure FileNode where
  path : Path
  linked : Bool
  dirty : Bool
  openHandles : Nat

/-- How often the inode is open. -/
def handleCount (handles : List OpenFile) (ino : Ino) : Nat :=
  handles.countP (·.ino = ino)

theorem handleCount_cons (handle : OpenFile) (handles : List OpenFile)
    (ino : Ino) : handleCount (handle :: handles) ino =
      handleCount handles ino + if handle.ino = ino then 1 else 0 := by
  simp [handleCount, List.countP_cons]

theorem handleCount_erase {handle : OpenFile} {handles : List OpenFile}
    (member : handle ∈ handles) (ino : Ino) :
    handleCount handles ino = handleCount (handles.erase handle) ino +
      if handle.ino = ino then 1 else 0 := by
  rw [← handleCount_cons]
  exact (List.perm_cons_erase member).countP_eq _

theorem handleCount_eq_zero {handles : List OpenFile} {ino : Ino}
    (closed : handleCount handles ino = 0) {handle : OpenFile}
    (member : handle ∈ handles) : handle.ino ≠ ino := by
  intro same
  have none_open := List.countP_eq_zero.mp closed handle member
  exact none_open (decide_eq_true same)

/-- Live files have different paths. -/
def PathsUnique (node : Ino → Option FileNode) : Prop :=
  ∀ {ino other : Ino} {left right : FileNode}, node ino = some left →
    node other = some right → left.linked = true → right.linked = true →
    left.path = right.path → ino = other

/-- The file of one inode, its handles, and what was written to it. -/
structure FitsAt (backing : PathStore Path Bytes) (handles : List OpenFile)
    (written : Ino → Option Bytes) (ino : Ino) (file : FileNode) : Prop where
  content : file.linked = true → ∀ {content : Bytes},
    written ino = some content → file.dirty = true ∧ ∃ number,
      backing.file file.path = some number ∧ backing.content number = content
  /-- A writable handle of a live file has the file at its path open. -/
  attached : file.linked = true → ∀ {number : Nat},
    ⟨ino, some number⟩ ∈ handles →
    backing.file file.path = some number ∧ (written ino).isSome = true
  /-- The file of an inode without links is at no other path. -/
  detached : file.linked = false → ∀ {number : Nat} {path : Path},
    ⟨ino, some number⟩ ∈ handles → backing.file path = some number →
    path = file.path
  used : ∀ {number : Nat}, ⟨ino, some number⟩ ∈ handles →
    number < backing.next
  counted : file.openHandles = handleCount handles ino

/-- Files, backing directory and handles fit together. -/
structure Fitting (node : Ino → Option FileNode)
    (backing : PathStore Path Bytes) (handles : List OpenFile)
    (written : Ino → Option Bytes) : Prop where
  separate : backing.Separate
  fits : ∀ {ino : Ino} {file : FileNode}, node ino = some file →
    FitsAt backing handles written ino file
  /-- Nobody has written at the path of an inode without links. -/
  claimed : ∀ {ino other : Ino} {gone live : FileNode}, node ino = some gone →
    gone.linked = false → node other = some live → live.linked = true →
    live.path = gone.path → written other = none
  known : ∀ handle ∈ handles, (node handle.ino).isSome = true

/-- No inode without links has the path. -/
def Free (node : Ino → Option FileNode) (path : Path) : Prop :=
  ∀ {ino : Ino} {file : FileNode}, node ino = some file →
    file.linked = false → file.path ≠ path

section

variable {node : Ino → Option FileNode}
  {backing newBacking : PathStore Path Bytes}
  {handles newHandles : List OpenFile} {written newWritten : Ino → Option Bytes}
  {ino : Ino} {file : FileNode}

/-- What happens to other inodes leaves this one as it is. -/
theorem FitsAt.frame (fits : FitsAt backing handles written ino file)
    (sameHandles : ∀ {number : Option Nat},
      (⟨ino, number⟩ : OpenFile) ∈ newHandles →
        (⟨ino, number⟩ : OpenFile) ∈ handles)
    (sameCount : handleCount newHandles ino = handleCount handles ino)
    (sameWritten : newWritten ino = written ino)
    (sameFile : file.linked = true → (written ino).isSome = true →
      ∀ {number : Nat}, backing.file file.path = some number →
        newBacking.file file.path = some number ∧
          newBacking.content number = backing.content number)
    (detached : file.linked = false → ∀ {number : Nat} {path : Path},
      ⟨ino, some number⟩ ∈ handles → newBacking.file path = some number →
        path = file.path)
    (next : backing.next ≤ newBacking.next) :
    FitsAt newBacking newHandles newWritten ino file := by
  constructor
  · intro linked content isWritten
    rw [sameWritten] at isWritten
    obtain ⟨dirty, number, found, same⟩ := fits.content linked isWritten
    obtain ⟨stays, sameContent⟩ :=
      sameFile linked (Option.isSome_of_mem isWritten) found
    exact ⟨dirty, number, stays, sameContent.trans same⟩
  · intro linked number member
    obtain ⟨found, isWritten⟩ := fits.attached linked (sameHandles member)
    rw [sameWritten]
    exact ⟨(sameFile linked isWritten found).1, isWritten⟩
  · intro unlinked number path member
    exact detached unlinked (sameHandles member)
  · intro number member
    exact Nat.lt_of_lt_of_le (fits.used (sameHandles member)) next
  · rw [sameCount]
    exact fits.counted

/-- Nothing but entries and handles of other inodes has changed. -/
theorem FitsAt.sameBacking (fits : FitsAt backing handles written ino file)
    (sameHandles : ∀ {number : Option Nat},
      (⟨ino, number⟩ : OpenFile) ∈ newHandles →
        (⟨ino, number⟩ : OpenFile) ∈ handles)
    (sameCount : handleCount newHandles ino = handleCount handles ino) :
    FitsAt backing newHandles written ino file :=
  fits.frame sameHandles sameCount rfl (fun _ _ _ found => ⟨found, rfl⟩)
    (fun unlinked _ _ member => fits.detached unlinked member) (Nat.le_refl _)

namespace Fitting

/-- One inode changes, comes in or goes, and the others fit as before. -/
theorem change (fitting : Fitting node backing handles written)
    {changed : Option FileNode} (separate : newBacking.Separate)
    (others : ∀ {other : Ino} {entry : FileNode}, other ≠ ino →
      node other = some entry →
        FitsAt newBacking newHandles newWritten other entry ∧
          (written other = none → newWritten other = none))
    (own : ∀ {entry : FileNode}, changed = some entry →
      FitsAt newBacking newHandles newWritten ino entry)
    (unlinks : ∀ {entry : FileNode}, changed = some entry →
      entry.linked = false → ∀ {other : Ino} {live : FileNode}, other ≠ ino →
        node other = some live → live.linked = true →
        live.path = entry.path → newWritten other = none)
    (lives : ∀ {entry : FileNode}, changed = some entry →
      entry.linked = true → ∀ {other : Ino} {gone : FileNode}, other ≠ ino →
        node other = some gone → gone.linked = false →
        entry.path = gone.path → newWritten ino = none)
    (known : ∀ handle ∈ newHandles, (handle.ino = ino → changed.isSome = true) ∧
      (handle.ino ≠ ino → handle ∈ handles)) :
    Fitting (Function.update node ino changed) newBacking newHandles
      newWritten := by
  constructor
  · exact separate
  · intro other entry found
    by_cases same : other = ino
    · subst same
      rw [Function.update_self] at found
      exact own found
    · rw [Function.update_of_ne same] at found
      exact (others same found).1
  · intro left right gone live foundGone unlinked foundLive linked same
    by_cases isLeft : left = ino
    · subst isLeft
      rw [Function.update_self] at foundGone
      by_cases isRight : right = left
      · subst isRight
        rw [Function.update_self, foundGone] at foundLive
        obtain rfl := Option.some.inj foundLive
        rw [unlinked] at linked
        cases linked
      · rw [Function.update_of_ne isRight] at foundLive
        exact unlinks foundGone unlinked isRight foundLive linked same
    · rw [Function.update_of_ne isLeft] at foundGone
      by_cases isRight : right = ino
      · subst isRight
        rw [Function.update_self] at foundLive
        exact lives foundLive linked isLeft foundGone unlinked same
      · rw [Function.update_of_ne isRight] at foundLive
        exact (others isRight foundLive).2
          (fitting.claimed foundGone unlinked foundLive linked same)
  · intro handle member
    obtain ⟨ofIno, ofOther⟩ := known handle member
    by_cases same : handle.ino = ino
    · rw [same, Function.update_self]
      exact ofIno same
    · rw [Function.update_of_ne same]
      exact fitting.known handle (ofOther same)

/-- Only a live file that is written has its file open for writing. -/
theorem holder_eq (fitting : Fitting node backing handles written)
    (unique : PathsUnique node) {other number : Nat} (found : node ino = some file)
    (linked : file.linked = true) (isWritten : (written ino).isSome = true)
    (at_path : backing.file file.path = some number)
    (member : (⟨other, some number⟩ : OpenFile) ∈ handles) : other = ino := by
  obtain ⟨holder, foundHolder⟩ := Option.isSome_iff_exists.mp
    (fitting.known _ member)
  have fits := fitting.fits foundHolder
  cases holderLinked : holder.linked with
  | true =>
      obtain ⟨own, _⟩ := fits.attached holderLinked member
      exact unique foundHolder found holderLinked linked
        (fitting.separate.path_eq own at_path)
  | false =>
      have same := fits.detached holderLinked member at_path
      have unwritten := fitting.claimed foundHolder holderLinked found linked
        same
      rw [unwritten] at isWritten
      cases isWritten

/-! ## The calls -/

/-- An inode that nobody knows comes in. -/
theorem add (fitting : Fitting node backing handles written)
    (fresh : node ino = none) (unwritten : written ino = none)
    (linked : file.linked = true) (closed : file.openHandles = 0) :
    Fitting (Function.update node ino (some file)) backing handles
      written := by
  have others : ∀ handle ∈ handles, handle.ino ≠ ino := by
    intro handle member same
    have known := fitting.known handle member
    rw [same, fresh] at known
    cases known
  apply fitting.change fitting.separate
  · intro other entry _ found
    exact ⟨fitting.fits found, fun none => none⟩
  · intro entry same
    obtain rfl := Option.some.inj same
    constructor
    · intro _ content isWritten
      rw [unwritten] at isWritten
      cases isWritten
    · intro _ number member
      exact absurd rfl (others _ member)
    · intro _ number path member
      exact absurd rfl (others _ member)
    · intro number member
      exact absurd rfl (others _ member)
    · rw [closed]
      symm
      apply List.countP_eq_zero.mpr
      intro handle member
      simpa using others handle member
  · intro entry same unlinked
    obtain rfl := Option.some.inj same
    rw [linked] at unlinked
    cases unlinked
  · intro _ _ _ _ _ _ _ _ _
    exact unwritten
  · intro handle member
    exact ⟨fun _ => rfl, fun _ => member⟩

/-- A live file becomes dirty. -/
theorem dirties (fitting : Fitting node backing handles written)
    (found : node ino = some file) :
    Fitting (Function.update node ino (some { file with dirty := true }))
      backing handles written := by
  have fits := fitting.fits found
  apply fitting.change fitting.separate
  · intro other entry _ foundOther
    exact ⟨fitting.fits foundOther, fun none => none⟩
  · intro entry same
    obtain rfl := Option.some.inj same
    refine ⟨?_, fits.attached, fits.detached, fits.used, fits.counted⟩
    intro linked content isWritten
    exact ⟨rfl, (fits.content linked isWritten).2⟩
  · intro entry same unlinked other live _ foundLive linked samePath
    obtain rfl := Option.some.inj same
    exact fitting.claimed found unlinked foundLive linked samePath
  · intro entry same linked other gone _ foundGone unlinked samePath
    obtain rfl := Option.some.inj same
    exact fitting.claimed foundGone unlinked found linked samePath
  · intro handle member
    exact ⟨fun _ => rfl, fun _ => member⟩

/-- A file is opened for writing, or created and opened. -/
theorem opens (fitting : Fitting node backing handles written)
    {number : Nat} {content : Bytes}
    (before : ∀ {entry : FileNode}, node ino = some entry →
      entry.path = file.path ∧ entry.linked = file.linked)
    (known : file.linked = false → (node ino).isSome = true)
    (apart : file.linked = true → ∀ {other : Ino} {entry : FileNode},
      other ≠ ino → node other = some entry → entry.path ≠ file.path)
    (dirty : file.dirty = true)
    (counted : file.openHandles = handleCount handles ino + 1)
    (opened : backing.Opens file.path number newBacking)
    (holds : file.linked = true → newBacking.content number = content) :
    Fitting (Function.update node ino (some file)) newBacking
      (⟨ino, some number⟩ :: handles)
      (Function.update written ino (some content)) := by
  apply fitting.change opened.separate
  · intro other entry isOther found
    have fits := fitting.fits found
    refine ⟨?_, fun none => by rw [Function.update_of_ne isOther]; exact none⟩
    apply fits.frame
    · intro handle member
      rcases List.mem_cons.mp member with same | member
      · exact absurd (congrArg OpenFile.ino same) isOther
      · exact member
    · rw [handleCount_cons, if_neg (Ne.symm isOther), Nat.add_zero]
    · exact Function.update_of_ne isOther _ _
    · intro linked isWritten other_number at_path
      have elsewhere : entry.path ≠ file.path := by
        intro same
        cases live : file.linked with
        | true => exact apart live isOther found same
        | false =>
            obtain ⟨gone, foundGone⟩ := Option.isSome_iff_exists.mp (known live)
            obtain ⟨samePath, sameLink⟩ := before foundGone
            rw [fitting.claimed foundGone (sameLink.trans live) found linked
              (same.trans samePath.symm)] at isWritten
            cases isWritten
      refine ⟨(opened.elsewhere elsewhere).trans at_path, opened.content ?_⟩
      rintro rfl
      exact elsewhere (opened.path_eq fitting.separate at_path)
    · intro unlinked other_number path member at_path
      by_cases here : path = file.path
      · subst here
        obtain rfl := Option.some.inj (opened.found.symm.trans at_path)
        rcases opened.source with old | ⟨_, isNew⟩
        · exact fits.detached unlinked member old
        · have old := fits.used member
          omega
      · rw [opened.elsewhere here] at at_path
        exact fits.detached unlinked member at_path
    · exact opened.next
  · intro entry same
    obtain rfl := Option.some.inj same
    have old : ∀ {other_number : Nat},
        (⟨ino, some other_number⟩ : OpenFile) ∈ handles →
        ∃ entry, node ino = some entry := fun member =>
      Option.isSome_iff_exists.mp (fitting.known _ member)
    constructor
    · intro linked isContent isWritten
      rw [Function.update_self] at isWritten
      obtain rfl := Option.some.inj isWritten
      exact ⟨dirty, number, opened.found, holds linked⟩
    · intro linked other_number member
      refine ⟨?_, by rw [Function.update_self]; rfl⟩
      rcases List.mem_cons.mp member with same | member
      · obtain rfl := Option.some.inj (OpenFile.mk.inj same).2
        exact opened.found
      · obtain ⟨entry, found⟩ := old member
        obtain ⟨samePath, sameLink⟩ := before found
        obtain ⟨at_path, _⟩ :=
          (fitting.fits found).attached (sameLink.trans linked) member
        rw [samePath] at at_path
        rw [opened.number_eq at_path]
        exact opened.found
    · intro unlinked other_number path member at_path
      rcases List.mem_cons.mp member with same | member
      · obtain rfl := Option.some.inj (OpenFile.mk.inj same).2
        exact opened.separate.path_eq at_path opened.found
      · by_cases here : path = file.path
        · exact here
        · obtain ⟨entry, found⟩ := old member
          obtain ⟨samePath, sameLink⟩ := before found
          rw [opened.elsewhere here] at at_path
          rw [← samePath]
          exact (fitting.fits found).detached (sameLink.trans unlinked) member
            at_path
    · intro other_number member
      rcases List.mem_cons.mp member with same | member
      · obtain rfl := Option.some.inj (OpenFile.mk.inj same).2
        exact opened.used
      · obtain ⟨entry, found⟩ := old member
        exact Nat.lt_of_lt_of_le ((fitting.fits found).used member) opened.next
    · rw [handleCount_cons, if_pos rfl]
      exact counted
  · intro entry same unlinked other live isOther foundLive linked samePath
    obtain rfl := Option.some.inj same
    obtain ⟨gone, foundGone⟩ := Option.isSome_iff_exists.mp (known unlinked)
    obtain ⟨goneSame, sameLink⟩ := before foundGone
    rw [Function.update_of_ne isOther]
    exact fitting.claimed foundGone (sameLink.trans unlinked) foundLive linked
      (samePath.trans goneSame.symm)
  · intro entry same linked other gone isOther foundGone unlinked samePath
    obtain rfl := Option.some.inj same
    exact absurd samePath.symm (apart linked isOther foundGone)
  · intro handle member
    refine ⟨fun _ => rfl, fun isOther => ?_⟩
    rcases List.mem_cons.mp member with rfl | member
    · exact absurd rfl isOther
    · exact member

theorem opensReadonly (fitting : Fitting node backing handles written)
    (found : node ino = some file) :
    Fitting (Function.update node ino
        (some { file with openHandles := file.openHandles + 1 })) backing
      (⟨ino, none⟩ :: handles) written := by
  have fits := fitting.fits found
  have old : ∀ {other : Ino} {number : Nat},
      (⟨other, some number⟩ : OpenFile) ∈ ⟨ino, none⟩ :: handles →
        (⟨other, some number⟩ : OpenFile) ∈ handles := by
    intro other number member
    rcases List.mem_cons.mp member with same | member
    · cases (OpenFile.mk.inj same).2
    · exact member
  apply fitting.change fitting.separate
  · intro other entry isOther foundOther
    refine ⟨(fitting.fits foundOther).sameBacking ?_ ?_, fun none => none⟩
    · intro handle member
      rcases List.mem_cons.mp member with same | member
      · exact absurd (congrArg OpenFile.ino same) isOther
      · exact member
    · rw [handleCount_cons, if_neg (Ne.symm isOther), Nat.add_zero]
  · intro entry same
    obtain rfl := Option.some.inj same
    refine ⟨fits.content, fun linked _ member => fits.attached linked (old member),
      fun unlinked _ _ member => fits.detached unlinked (old member),
      fun member => fits.used (old member), ?_⟩
    rw [handleCount_cons, if_pos rfl, ← fits.counted]
  · intro entry same unlinked other live _ foundLive linked samePath
    obtain rfl := Option.some.inj same
    exact fitting.claimed found unlinked foundLive linked samePath
  · intro entry same linked other gone _ foundGone unlinked samePath
    obtain rfl := Option.some.inj same
    exact fitting.claimed foundGone unlinked found linked samePath
  · intro handle member
    refine ⟨fun _ => rfl, fun isOther => ?_⟩
    rcases List.mem_cons.mp member with rfl | member
    · exact absurd rfl isOther
    · exact member

theorem writes (fitting : Fitting node backing handles written)
    (unique : PathsUnique node) {number : Nat}
    (member : (⟨ino, some number⟩ : OpenFile) ∈ handles)
    (found : node ino = some file) (change : Bytes → Bytes) :
    Fitting (Function.update node ino (some { file with dirty := true }))
      (backing.write number change) handles
      (Function.update written ino ((written ino).map change)) := by
  have fits := fitting.fits found
  apply fitting.change (fitting.separate.write number change)
  · intro other entry isOther foundOther
    have fitsOther := fitting.fits foundOther
    refine ⟨?_, fun none => by rw [Function.update_of_ne isOther]; exact none⟩
    apply fitsOther.frame (fun member => member) rfl
    · exact Function.update_of_ne isOther _ _
    · intro linked isWritten other_number at_path
      refine ⟨at_path, Function.update_of_ne ?_ _ _⟩
      rintro rfl
      exact isOther (fitting.holder_eq unique foundOther linked isWritten
        at_path member).symm
    · exact fun unlinked _ _ => fitsOther.detached unlinked
    · exact Nat.le_refl _
  · intro entry same
    obtain rfl := Option.some.inj same
    refine ⟨?_, ?_, fits.detached, fits.used, fits.counted⟩
    · intro linked content isWritten
      rw [Function.update_self, Option.map_eq_some_iff] at isWritten
      obtain ⟨before, wasWritten, rfl⟩ := isWritten
      obtain ⟨_, own, at_path, holds⟩ := fits.content linked wasWritten
      obtain ⟨attached, _⟩ := fits.attached linked member
      obtain rfl := Option.some.inj (at_path.symm.trans attached)
      refine ⟨rfl, own, at_path, ?_⟩
      simp only [PathStore.write, Function.update_self, holds]
    · intro linked other_number memberOther
      obtain ⟨at_path, isWritten⟩ := fits.attached linked memberOther
      refine ⟨at_path, ?_⟩
      rw [Function.update_self, Option.isSome_map]
      exact isWritten
  · intro entry same unlinked other live isOther foundLive linked samePath
    obtain rfl := Option.some.inj same
    rw [Function.update_of_ne isOther]
    exact fitting.claimed found unlinked foundLive linked samePath
  · intro entry same linked other gone _ foundGone unlinked samePath
    obtain rfl := Option.some.inj same
    rw [Function.update_self,
      fitting.claimed foundGone unlinked found linked samePath]
    rfl
  · intro handle isHandle
    exact ⟨fun _ => rfl, fun _ => isHandle⟩

/-- A file that is open loses its link. -/
theorem unlinks (fitting : Fitting node backing handles written)
    (unique : PathsUnique node) (found : node ino = some file)
    (linked : file.linked = true) :
    Fitting (Function.update node ino (some { file with linked := false }))
      backing handles written := by
  have fits := fitting.fits found
  apply fitting.change fitting.separate
  · intro other entry _ foundOther
    exact ⟨fitting.fits foundOther, fun none => none⟩
  · intro entry same
    obtain rfl := Option.some.inj same
    refine ⟨nofun, nofun, ?_, fits.used, fits.counted⟩
    intro _ number path member at_path
    obtain ⟨attached, _⟩ := fits.attached linked member
    exact fitting.separate.path_eq at_path attached
  · intro entry same _ other live isOther foundLive liveLinked samePath
    obtain rfl := Option.some.inj same
    exact absurd (unique foundLive found liveLinked linked samePath) isOther
  · intro entry same isLinked
    obtain rfl := Option.some.inj same
    cases isLinked
  · intro handle member
    exact ⟨fun _ => rfl, fun _ => member⟩

/-- A file that nobody has open goes, with the file at its path. -/
theorem drops (fitting : Fitting node backing handles written)
    (found : node ino = some file) (closed : file.openHandles = 0)
    (apart : ∀ {other : Ino} {live : FileNode}, other ≠ ino →
      node other = some live → live.linked = true → live.path = file.path →
      written other = none) :
    Fitting (Function.update node ino none) (backing.remove file.path) handles
      written := by
  have none_open : handleCount handles ino = 0 :=
    (fitting.fits found).counted.symm.trans closed
  apply fitting.change (fitting.separate.remove file.path)
  · intro other entry isOther foundOther
    have fits := fitting.fits foundOther
    refine ⟨?_, fun none => none⟩
    apply fits.frame (fun member => member) rfl rfl
    · intro linked isWritten number at_path
      refine ⟨?_, rfl⟩
      rw [PathStore.remove_file_of_ne]
      · exact at_path
      · intro same
        rw [apart isOther foundOther linked same] at isWritten
        cases isWritten
    · intro unlinked number path member at_path
      exact fits.detached unlinked member (PathStore.file_of_remove at_path).2
    · exact Nat.le_refl _
  · exact nofun
  · exact nofun
  · exact nofun
  · intro handle member
    exact ⟨fun same => absurd same (handleCount_eq_zero none_open member),
      fun _ => member⟩

/-- A live file moves to a path that nobody has. -/
theorem moves (fitting : Fitting node backing handles written)
    (unique : PathsUnique node) (found : node ino = some file)
    (linked : file.linked = true) (freeOld : Free node file.path)
    {newPath : Path}
    (apart : ∀ {other : Ino} {entry : FileNode}, other ≠ ino →
      node other = some entry → entry.path ≠ newPath) :
    Fitting (Function.update node ino (some { file with path := newPath }))
      (backing.rename file.path newPath) handles written := by
  have fits := fitting.fits found
  have moved : (backing.rename file.path newPath).file newPath =
      backing.file file.path := by
    rw [PathStore.rename_file, if_pos rfl]
  apply fitting.change (fitting.separate.rename file.path newPath)
  · intro other entry isOther foundOther
    have fitsOther := fitting.fits foundOther
    refine ⟨?_, fun none => none⟩
    apply fitsOther.frame (fun member => member) rfl rfl
    · intro otherLinked _ number at_path
      refine ⟨?_, rfl⟩
      rw [PathStore.rename_file, if_neg (apart isOther foundOther), if_neg]
      · exact at_path
      · exact fun same => isOther
          (unique foundOther found otherLinked linked same)
    · intro unlinked number path member at_path
      rw [PathStore.rename_file] at at_path
      split at at_path
      · have same := fitsOther.detached unlinked member at_path
        exact absurd same.symm (freeOld foundOther unlinked)
      · split at at_path
        · cases at_path
        · exact fitsOther.detached unlinked member at_path
    · exact Nat.le_refl _
  · intro entry same
    obtain rfl := Option.some.inj same
    refine ⟨?_, ?_, ?_, fits.used, fits.counted⟩
    · intro _ content isWritten
      rw [moved]
      exact fits.content linked isWritten
    · intro _ number member
      rw [moved]
      exact fits.attached linked member
    · intro unlinked
      rw [linked] at unlinked
      cases unlinked
  · intro entry same unlinked
    obtain rfl := Option.some.inj same
    rw [linked] at unlinked
    cases unlinked
  · intro entry same _ other gone isOther foundGone _ samePath
    obtain rfl := Option.some.inj same
    exact absurd samePath.symm (apart isOther foundGone)
  · intro handle member
    exact ⟨fun _ => rfl, fun _ => member⟩

theorem closes (fitting : Fitting node backing handles written)
    (found : node ino = some file) {number : Option Nat}
    (member : (⟨ino, number⟩ : OpenFile) ∈ handles) :
    Fitting (Function.update node ino
        (some { file with openHandles := file.openHandles - 1 })) backing
      (handles.erase ⟨ino, number⟩) written := by
  have fits := fitting.fits found
  have old : ∀ {handle : OpenFile}, handle ∈ handles.erase ⟨ino, number⟩ →
      handle ∈ handles := List.mem_of_mem_erase
  have count := handleCount_erase member
  apply fitting.change fitting.separate
  · intro other entry isOther foundOther
    refine ⟨(fitting.fits foundOther).sameBacking old ?_, fun none => none⟩
    rw [count other, if_neg (Ne.symm isOther), Nat.add_zero]
  · intro entry same
    obtain rfl := Option.some.inj same
    refine ⟨fits.content, fun linked _ isHandle =>
        fits.attached linked (old isHandle),
      fun unlinked _ _ isHandle => fits.detached unlinked (old isHandle),
      fun isHandle => fits.used (old isHandle), ?_⟩
    rw [fits.counted, count ino, if_pos rfl]
    exact Nat.add_sub_cancel _ _
  · intro entry same unlinked other live _ foundLive linked samePath
    obtain rfl := Option.some.inj same
    exact fitting.claimed found unlinked foundLive linked samePath
  · intro entry same linked other gone _ foundGone unlinked samePath
    obtain rfl := Option.some.inj same
    exact fitting.claimed foundGone unlinked found linked samePath
  · intro handle isHandle
    exact ⟨fun _ => rfl, fun _ => old isHandle⟩

end Fitting

end

end HfMount.Vfs.Overlay
