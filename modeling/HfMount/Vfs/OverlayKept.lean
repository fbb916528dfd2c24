import HfMount.Vfs.OverlayNodes
import HfMount.Vfs.DirectoryRename
import HfMount.Vfs.EvictionSafe
import HfMount.Vfs.UnlinkSafe

/-!
# What was written stays in the overlay

As long as the calls keep away from the paths of unlinked files that are still
open, files, backing directory and handles fit together, and the last close of
an unlinked file removes no other file.
-/

namespace HfMount.Inode.InodeTable

open SlashPath Vfs

theorem InOrder.createEntry {table : InodeTable} (order : table.InOrder)
    {parent : Ino} {name : Name} {parentEntry : InodeEntry}
    (found : table.get parent = some parentEntry)
    (directory : parentEntry.kind = .directory) (valid : ValidName name)
    (mode uid gid : Nat) (now : Time) :
    (References.createEntry table parent name
      (childPath parentEntry.fullPath name) mode uid gid now).2.InOrder := by
  have inserted := order.insert found directory valid (fun _ => rfl) .file 0
    now none mode uid gid now
  apply (inserted.update _ _).update
  · exact fun entry => Unlinks.sameLinks_touch entry now
  · exact fun _ => .of_fields rfl

theorem tapers_reap (table : InodeTable) (overlay : Bool) (ino : Ino) :
    table.Tapers (table.reapOnLastRelease overlay ino).table := by
  have taken : ∀ current : InodeTable,
      current.Tapers (current.takeEvictPending ino).2 := fun current =>
    tapers_fields current ino (fun _ => ⟨rfl, rfl⟩) fun _ => rfl
  apply (tapers_removeOrphan table ino).trans
  unfold reapOnLastRelease InodeTable.evictPending
  dsimp only
  split
  · exact (taken _).trans (tapers_evictIfSafe _ _)
  · exact taken _

end HfMount.Inode.InodeTable

namespace HfMount.Vfs.Overlay

open SlashPath Inode InodeTable Transition Flush

/-- The invariant of a run. -/
structure Kept (state : Overlay) : Prop where
  order : state.table.InOrder
  fitting : Fitting (nodes state.table) state.backing state.handles
    state.written
  known : ∀ {ino : Ino}, (state.written ino).isSome = true →
    ino < state.table.nextInode

section

variable {state : Overlay} {ino : Ino} {entry : InodeEntry}

theorem Kept.keepsWritten (kept : state.Kept) : state.KeepsWritten := by
  intro ino entry content found isFile linked _ isWritten
  have notDirectory : entry.kind ≠ .directory := by
    rw [isFile]
    decide
  have shown := (nodes_of_get found).trans (fileNode_of_file notDirectory)
  exact ((kept.fitting.fits shown).content (decide_eq_true linked)
    isWritten).2

theorem free_of_unclaimed {path : Path} (unclaimed : state.Unclaimed path) :
    Free (nodes state.table) path := by
  intro ino file shown unlinked
  obtain ⟨entry, found, shows⟩ := nodes_eq_some.mp shown
  obtain ⟨_, samePath, links, _⟩ := fileNode_eq_some.mp shows
  rw [links, decide_eq_false_iff_not] at unlinked
  rw [samePath]
  exact unclaimed entry (mem_values.mpr ⟨ino, found⟩) (by omega)

theorem Kept.unwritten_nextInode (kept : state.Kept) :
    state.written state.table.nextInode = none := by
  cases isWritten : state.written state.table.nextInode with
  | none => rfl
  | some content =>
      exact absurd (kept.known (Option.isSome_of_mem isWritten))
        (Nat.lt_irrefl _)

theorem Kept.closed_nextInode (kept : state.Kept) :
    handleCount state.handles state.table.nextInode = 0 := by
  apply List.countP_eq_zero.mpr
  intro handle member same
  have isKnown := kept.fitting.known handle member
  rw [of_decide_eq_true same, nodes_nextInode kept.order.wf] at isKnown
  cases isKnown

/-! ## Listings -/

theorem fileNode_mergeEntry (localSize : Nat) (entry : InodeEntry)
    {file : FileNode} (shown : fileNode entry = some file) :
    fileNode (mergeEntry localSize entry) =
      some { file with dirty := true } := by
  obtain ⟨notDirectory, path, linked, dirty, openHandles⟩ :=
    fileNode_eq_some.mp shown
  have isDirty : (mergeEntry localSize entry).isDirty = true := by
    unfold mergeEntry
    dsimp only
    split
    · assumption
    · exact InodeEntry.isDirty_iff.mpr (InodeEntry.setDirty_pos _)
  apply fileNode_eq_some.mpr
  refine ⟨?_, ?_, ?_, isDirty.symm, ?_⟩
  all_goals
    unfold mergeEntry
    dsimp only
    split
  · exact notDirectory
  · exact notDirectory
  · exact path
  · exact path
  · exact linked
  · exact linked
  · exact openHandles
  · exact openHandles

theorem sameLinks_mergeEntry (localSize : Nat) (entry : InodeEntry) :
    entry.SameLinks (mergeEntry localSize entry) := by
  unfold mergeEntry
  dsimp only
  split <;> exact .of_fields rfl

/-- The local file that has been found makes its entry dirty. -/
theorem Kept.merges (kept : state.Kept) (ino : Ino) (localSize : Nat) :
    Kept { state with
      table := state.table.modify ino (mergeEntry localSize) } := by
  refine ⟨kept.order.update ino (sameLinks_mergeEntry localSize), ?_, ?_⟩
  · dsimp only
    cases found : state.table.get ino with
    | none =>
        rw [modify_of_none found]
        exact kept.fitting
    | some entry =>
        rw [nodes_modify found]
        cases shown : fileNode entry with
        | none =>
            have directory : fileNode (mergeEntry localSize entry) = none := by
              unfold fileNode at shown ⊢
              rw [(sameLinks_mergeEntry localSize entry).kind]
              split at shown
              · exact if_pos ‹_›
              · cases shown
            rw [directory, ← shown, ← nodes_of_get found,
              Function.update_eq_self]
            exact kept.fitting
        | some file =>
            rw [fileNode_mergeEntry localSize entry shown]
            exact kept.fitting.dirties ((nodes_of_get found).trans shown)
  · intro other isWritten
    rw [nextInode_modify]
    exact kept.known isWritten

/-- What is listed under a free name is new, and its path is not claimed by a
live file. -/
theorem Kept.apart_of_free (kept : state.Kept) {parent : Ino} {name : Name}
    {parentEntry : InodeEntry}
    (found : state.table.get parent = some parentEntry)
    (directory : parentEntry.kind = .directory) (valid : ValidName name)
    (free : parentEntry.childIndex name = none) {other : Ino}
    {file : FileNode} (shown : nodes state.table other = some file)
    (linked : file.linked = true) :
    file.path ≠ childPath parentEntry.fullPath name := by
  intro same
  have unmapped := kept.order.wf.path_of_free found directory valid free
  obtain ⟨live, foundLive, shows⟩ := nodes_eq_some.mp shown
  obtain ⟨_, path, links, _⟩ := fileNode_eq_some.mp shows
  rw [links] at linked
  have isLive := (kept.order.live_of_nlink foundLive).mpr
    (of_decide_eq_true linked)
  have mapped := kept.order.wf.path.mpr
    ⟨live, foundLive, isLive, path.symm.trans same⟩
  rw [unmapped] at mapped
  cases mapped

theorem Kept.inserts (kept : state.Kept) {parent : Ino} {name : Name}
    {parentEntry : InodeEntry}
    (found : state.table.get parent = some parentEntry)
    (directory : parentEntry.kind = .directory) (valid : ValidName name)
    (kind : InodeKind) (size : Nat) (mtime : Time) (xetHash : Option Hash)
    (mode uid gid : Nat) (now : Time) :
    Kept { state with
      table := (state.table.insert parent name
        (childPath parentEntry.fullPath name) kind size mtime xetHash mode uid
        gid now).2 } := by
  have wf := kept.order.wf
  refine ⟨kept.order.insert found directory valid (fun _ => rfl) kind size
    mtime xetHash mode uid gid now, ?_, ?_⟩
  · dsimp only
    cases mapped :
        state.table.pathToInode (childPath parentEntry.fullPath name) with
    | some existing =>
        simp only [InodeTable.insert, mapped]
        rw [nodes_modify_same]
        · exact kept.fitting
        · exact fun _ => rfl
    | none =>
        obtain ⟨after, inserted, _, shows⟩ := nodes_insert wf found directory
          valid (wf.free_of_path found mapped) kind size mtime xetHash mode uid
          gid now
        rw [inserted, shows]
        by_cases isDirectory : kind = .directory
        · have hidden : fileNode (InodeEntry.new state.table.nextInode parent
              name (childPath parentEntry.fullPath name) kind size mtime xetHash
              mode uid gid now state.table.touchCounter) = none :=
            if_pos isDirectory
          rw [hidden, ← nodes_nextInode wf, Function.update_eq_self]
          exact kept.fitting
        · rw [fileNode_of_file isDirectory]
          apply kept.fitting.add (nodes_nextInode wf) kept.unwritten_nextInode
          · cases kind <;> simp_all [InodeEntry.new]
          · rfl
  · intro other isWritten
    have next := (extends_insert state.table parent name
      (childPath parentEntry.fullPath name) kind size mtime xetHash mode uid
      gid now).next
    exact Nat.lt_of_lt_of_le (kept.known isWritten) next

theorem Kept.lists (kept : state.Kept) {parent : Ino} {name : Name}
    {parentEntry : InodeEntry}
    (found : state.table.get parent = some parentEntry)
    (directory : parentEntry.kind = .directory) (valid : ValidName name)
    (kind : InodeKind) (size : Nat) (mtime : Time) (xetHash : Option Hash)
    (mode uid gid : Nat) (now : Time) :
    (state.list parent name (childPath parentEntry.fullPath name) kind size
      mtime xetHash mode uid gid now).Kept := by
  have inserted := kept.inserts found directory valid kind size mtime xetHash
    mode uid gid now
  unfold Overlay.list
  dsimp only
  split
  · exact inserted.merges _ _
  · exact inserted

/-! ## Opening -/

/-- The table grows, or keeps its inodes. -/
theorem Kept.written_lt (kept : state.Kept) {table : InodeTable}
    (next : state.table.nextInode ≤ table.nextInode) {content : Option Bytes}
    (opened : ino < table.nextInode) {other : Ino}
    (isWritten : (Function.update state.written ino content
      other).isSome = true) : other < table.nextInode := by
  by_cases same : other = ino
  · subst same
    exact opened
  · rw [Function.update_of_ne same] at isWritten
    exact Nat.lt_of_lt_of_le (kept.known isWritten) next

theorem sameLinks_opened (entry : InodeEntry) (openHandles : Nat) :
    entry.SameLinks { entry with
      eviction := { entry.eviction with openHandles } } :=
  sameLinks_eviction entry _

theorem Kept.creates (kept : state.Kept) {parent : Ino} {name : Name}
    {parentEntry : InodeEntry}
    (found : state.table.get parent = some parentEntry)
    (directory : parentEntry.kind = .directory) (valid : ValidName name)
    (free : state.table.lookupChild parent name = none)
    (unclaimed : state.Unclaimed (childPath parentEntry.fullPath name))
    (mode uid gid : Nat) (now : Time) :
    (state.create parent name (childPath parentEntry.fullPath name) mode uid
      gid now).Kept := by
  have wf := kept.order.wf
  have unnamed := (wf.lookupChild_none found).mp free
  obtain ⟨after, created, shows⟩ := nodes_createEntry wf found directory valid
    unnamed mode uid gid now
  have order := kept.order.createEntry found directory valid mode uid gid now
  rw [created] at order
  have next := (References.extends_createEntry state.table parent name
    (childPath parentEntry.fullPath name) mode uid gid now).next
  rw [created] at next
  unfold Overlay.create
  rw [created]
  have node := congrFun shows state.table.nextInode
  rw [Function.update_self] at node
  refine ⟨order.update _ fun entry => sameLinks_opened entry _, ?_, ?_⟩
  · dsimp only
    rw [nodes_bumpOpenHandles node, shows, Function.update_idem]
    apply kept.fitting.opens
    · intro entry shown
      rw [nodes_nextInode wf] at shown
      cases shown
    · exact nofun
    · intro _ other entry _ shown
      cases linked : entry.linked with
      | true =>
          exact kept.apart_of_free found directory valid unnamed shown linked
      | false => exact free_of_unclaimed unclaimed shown linked
    · rfl
    · rw [kept.closed_nextInode]
    · exact kept.fitting.separate.opens_create _ _
    · exact fun _ => (PathStore.create_spec _ _ _).2
  · intro other isWritten
    have grown : (after.bumpOpenHandles state.table.nextInode).nextInode =
        after.nextInode := nextInode_modify _ _ _
    refine kept.written_lt ?_ ?_ isWritten
    · rw [grown]
      exact next
    · rw [grown]
      exact lt_nextInode order.wf node

theorem openLocal_opens {backing : PathStore Path Bytes}
    (separate : backing.Separate) (path : Path) (reuse : Bool) :
    backing.Opens path (openLocal backing path reuse).1
      (openLocal backing path reuse).2 := by
  unfold openLocal
  split
  · exact separate.opens ‹_›
  · exact separate.opens_create path []

/-- What is opened holds what was written, or is empty. -/
theorem FitsAt.openLocal_content {file : FileNode}
    (fits : FitsAt state.backing state.handles state.written ino file)
    (linked : file.linked = true) {content : Bytes}
    (isWritten : state.written ino = some content) (current : Bool) :
    (openLocal state.backing file.path (file.dirty || current)).2.content
      (openLocal state.backing file.path (file.dirty || current)).1 =
        content := by
  obtain ⟨dirty, number, found, holds⟩ := fits.content linked isWritten
  simp only [openLocal, found, dirty, Bool.true_or]
  exact holds

theorem openLocal_truncates (backing : PathStore Path Bytes) (path : Path) :
    (openLocal backing path false).2.content
      (openLocal backing path false).1 = [] := by
  unfold openLocal
  split
  · cases ‹false = true›
  · exact (backing.create_spec path []).2

theorem fileNode_openedEntry {file : FileNode}
    (shown : fileNode entry = some file) (reused truncate : Bool)
    (now : Time) :
    fileNode (openedEntry reused truncate now entry) =
      some { file with dirty := true } := by
  obtain ⟨notDirectory, path, linked, _, openHandles⟩ :=
    fileNode_eq_some.mp shown
  exact fileNode_eq_some.mpr ⟨notDirectory, path, linked,
    (InodeEntry.isDirty_iff.mpr (InodeEntry.setDirty_pos entry)).symm,
    openHandles⟩

theorem Kept.opensWrite (kept : state.Kept)
    (found : state.table.get ino = some entry) (isFile : entry.kind = .file)
    (unclaimed : 0 < entry.nlink → state.Unclaimed entry.fullPath)
    {truncate : Bool} {now : Time} {next : Overlay}
    (opened : state.openWrite ino entry truncate now = some next) :
    next.Kept := by
  have wf := kept.order.wf
  have notDirectory : entry.kind ≠ .directory := by
    rw [isFile]
    decide
  have shows := fileNode_of_file notDirectory
  have shown := (nodes_of_get found).trans shows
  have fits := kept.fitting.fits shown
  unfold Overlay.openWrite at opened
  dsimp only at opened
  split at opened
  · cases opened
  obtain rfl := Option.some.inj opened
  have marked := nodes_modify found
    (openedEntry ((!truncate && (entry.isDirty || entry.stagingIsCurrent)) &&
      (state.backing.file entry.fullPath).isSome) truncate now)
  rw [fileNode_openedEntry shows] at marked
  have node := congrFun marked ino
  rw [Function.update_self] at node
  refine ⟨?_, ?_, ?_⟩
  · apply (kept.order.update ino _).update
    · exact fun entry => sameLinks_opened entry _
    · exact fun _ => .of_fields rfl
  · dsimp only
    rw [nodes_bumpOpenHandles node, marked, Function.update_idem]
    apply kept.fitting.opens
    · intro other again
      obtain rfl := Option.some.inj (shown.symm.trans again)
      exact ⟨rfl, rfl⟩
    · intro _
      rw [shown]
      rfl
    · intro linked other file isOther foundOther
      cases otherLinked : file.linked with
      | true =>
          intro same
          exact isOther (pathsUnique_nodes wf foundOther shown otherLinked linked
            same)
      | false =>
          exact free_of_unclaimed (unclaimed (of_decide_eq_true linked))
            foundOther otherLinked
    · rfl
    · exact congrArg (· + 1) fits.counted
    · exact openLocal_opens kept.fitting.separate _ _
    · intro linked
      cases truncate with
      | true => exact openLocal_truncates _ _
      | false =>
          cases isWritten : state.written ino with
          | none => rfl
          | some content => exact fits.openLocal_content linked isWritten _
  · intro other isWritten
    have grown : ∀ change : InodeEntry → InodeEntry,
        ((state.table.modify ino change).bumpOpenHandles ino).nextInode =
          state.table.nextInode :=
      fun change => (nextInode_modify _ _ _).trans (nextInode_modify _ _ _)
    rw [grown]
    exact kept.written_lt (Nat.le_refl _) (lt_nextInode wf shown) isWritten

theorem Kept.opensReadonly (kept : state.Kept)
    (found : state.table.get ino = some entry) (isFile : entry.kind = .file)
    {next : Overlay} (opened : state.openReadonly ino entry = some next) :
    next.Kept := by
  have notDirectory : entry.kind ≠ .directory := by
    rw [isFile]
    decide
  have shown := (nodes_of_get found).trans (fileNode_of_file notDirectory)
  unfold Overlay.openReadonly at opened
  split at opened
  · cases opened
  obtain rfl := Option.some.inj opened
  refine ⟨kept.order.update _ fun entry => sameLinks_opened entry _, ?_, ?_⟩
  · dsimp only
    rw [nodes_bumpOpenHandles shown]
    exact kept.fitting.opensReadonly shown
  · intro other isWritten
    rw [bumpOpenHandles, nextInode_modify]
    exact kept.known isWritten

/-! ## Writing -/

theorem Kept.writes (kept : state.Kept) {handle : OpenFile} {file : Nat}
    (member : handle ∈ state.handles) (writable : handle.backing = some file)
    (offset : Nat) (data : Bytes) :
    (state.write handle file offset data).Kept := by
  obtain ⟨ino, backing⟩ := handle
  obtain rfl : backing = some file := writable
  obtain ⟨node, shown⟩ := Option.isSome_iff_exists.mp
    (kept.fitting.known _ member)
  obtain ⟨entry, found, shows⟩ := nodes_eq_some.mp shown
  obtain ⟨notDirectory, path, linked, dirty, openHandles⟩ :=
    fileNode_eq_some.mp shows
  refine ⟨kept.order.update _ fun entry => ?_, ?_, ?_⟩
  · exact .of_fields rfl
  · have written : fileNode (InodeEntry.setDirty { entry with
        size := max entry.size (offset + data.length) }) =
          some { node with dirty := true } :=
      fileNode_eq_some.mpr ⟨notDirectory, path, linked,
        (InodeEntry.isDirty_iff.mpr (InodeEntry.setDirty_pos _)).symm,
        openHandles⟩
    have shows := nodes_modify found fun entry => InodeEntry.setDirty
      { entry with size := max entry.size (offset + data.length) }
    rw [written] at shows
    exact shows ▸ kept.fitting.writes (pathsUnique_nodes kept.order.wf) member
      shown (writeAt · offset data)
  · intro other isWritten
    have same : (state.write ⟨ino, some file⟩ file offset data).table.nextInode =
        state.table.nextInode := nextInode_modify _ _ _
    rw [same]
    exact kept.written_lt (Nat.le_refl _) (lt_nextInode kept.order.wf shown)
      isWritten

/-! ## Unlinking and closing -/

theorem Kept.unlinks (kept : state.Kept) {parent : Ino} {name : Name}
    (looked : state.table.lookupChild parent name = some entry)
    (file : entry.kind ≠ .directory) (now : Time) :
    (state.unlink parent name entry now).Kept := by
  have wf := kept.order.wf
  obtain ⟨_, _, _, isChild⟩ := wf.lookupChild.mp looked
  have found : state.table.get entry.inode = some entry := isChild.found
  have shows := fileNode_of_file file
  have shown := (nodes_of_get found).trans shows
  have links := wf.links found file
  have linked : decide (0 < entry.nlink) = true := by
    have live := (kept.order.live_of_nlink found).mp isChild.live
    exact decide_eq_true live
  obtain ⟨lastLink, gone, unlinkedNodes⟩ := nodes_unlinkOne wf looked file now
  have unlinkedOrder := kept.order.unlinkOne (fun other lookedOther => by
    obtain rfl := Option.some.inj (looked.symm.trans lookedOther)
    exact file) now
  obtain ⟨touched, isTouched⟩ : ∃ touched, touched =
      (state.table.unlinkOne parent name now).2.touchParent parent now :=
    ⟨_, rfl⟩
  have order : touched.InOrder := isTouched ▸ unlinkedOrder.update parent
    fun entry => Unlinks.sameLinks_touch entry now
  have touchedNodes : nodes touched = Function.update (nodes state.table)
      entry.inode (some
        { path := entry.fullPath
          linked := false
          dirty := entry.isDirty
          openHandles := entry.eviction.openHandles }) := by
    rw [isTouched, nodes_touchParent, unlinkedNodes]
    congr 1
    exact fileNode_eq_some.mpr ⟨file, rfl, by simp, rfl, rfl⟩
  have sameNext : touched.nextInode = state.table.nextInode := by
    rw [isTouched]
    exact (nextInode_modify _ _ _).trans (tapers_unlinkOne _ _ _ _).nextInode
  have node := congrFun touchedNodes entry.inode
  rw [Function.update_self] at node
  obtain ⟨orphan, foundOrphan, orphanShows⟩ := nodes_eq_some.mp node
  obtain ⟨_, _, orphanLinks, _, orphanHandles⟩ :=
    fileNode_eq_some.mp orphanShows
  have noLinks : orphan.nlink = 0 := by
    have notPositive := of_decide_eq_false orphanLinks.symm
    omega
  have isOpen : touched.hasOpenHandles entry.inode =
      decide (0 < entry.eviction.openHandles) := by
    rw [hasOpenHandles, foundOrphan, Option.any_some, InodeEntry.hasOpenHandles,
      ← orphanHandles]
  unfold Overlay.unlink
  dsimp only
  rw [← isTouched, lastLink, isOpen]
  split <;> rename_i closed
  · have noHandles : entry.eviction.openHandles = 0 := by
      simpa using closed
    refine ⟨order.removeOrphan _, ?_, ?_⟩
    · dsimp only
      rw [nodes_removeOrphan order foundOrphan, if_pos noLinks, touchedNodes,
        Function.update_idem]
      apply kept.fitting.drops shown noHandles
      intro other live isOther foundLive liveLinked same
      exact absurd (pathsUnique_nodes wf foundLive shown liveLinked linked same)
        isOther
    · intro other isWritten
      rw [(tapers_removeOrphan _ _).nextInode, sameNext]
      exact kept.known isWritten
  · refine ⟨order, ?_, ?_⟩
    · dsimp only
      rw [touchedNodes]
      exact kept.fitting.unlinks (pathsUnique_nodes wf) shown linked
    · intro other isWritten
      exact sameNext.symm ▸ kept.known isWritten

/-- The last close of an unlinked file takes its backing file, and an eviction
that was deferred that of a clean file. -/
theorem Kept.reaps (kept : state.Kept) {node : FileNode}
    (shown : nodes state.table ino = some node) (closed : node.openHandles = 0) :
    Kept { state with
      table := (state.table.reapOnLastRelease true ino).table
      backing :=
        match (state.table.reapOnLastRelease true ino).overlayPath with
        | some path => state.backing.remove path
        | none => state.backing } := by
  obtain ⟨entry, found, shows⟩ := nodes_eq_some.mp shown
  obtain ⟨notDirectory, path, links, dirty, openHandles⟩ :=
    fileNode_eq_some.mp shows
  have wf := kept.order.wf
  have order := kept.order.reap true ino
  have next : (state.table.reapOnLastRelease true ino).table.nextInode =
      state.table.nextInode := tapers_reap state.table true ino |>.nextInode
  refine ⟨order, ?_, ?_⟩
  · dsimp only
    rcases nodes_reap kept.order found with ⟨why, gone, removes⟩ |
      ⟨stays, removesNone⟩
    · rw [gone, removes, ← path]
      apply kept.fitting.drops shown closed
      intro other live isOther foundLive liveLinked same
      rcases why with noLinks | clean
      · have unlinked : node.linked = false := by
          rw [links, noLinks]
          rfl
        exact kept.fitting.claimed shown unlinked foundLive liveLinked same
      · cases linked : node.linked with
        | true =>
            exact absurd
              (pathsUnique_nodes wf foundLive shown liveLinked linked same)
              isOther
        | false =>
            exact kept.fitting.claimed shown linked foundLive liveLinked same
    · rw [stays, removesNone]
      exact kept.fitting
  · intro other isWritten
    dsimp only
    rw [next]
    exact kept.known isWritten

theorem Kept.releases (kept : state.Kept) {handle : OpenFile}
    (member : handle ∈ state.handles) : (state.release handle).Kept := by
  obtain ⟨ino, number⟩ := handle
  obtain ⟨node, shown⟩ := Option.isSome_iff_exists.mp
    (kept.fitting.known _ member)
  have dropped := nodes_dropOpenHandles shown
  have closed : Kept { state with
      table := state.table.dropOpenHandles ino
      handles := state.handles.erase ⟨ino, number⟩ } := by
    refine ⟨kept.order.update _ fun entry => sameLinks_opened entry _, ?_, ?_⟩
    · dsimp only
      rw [dropped]
      exact kept.fitting.closes shown member
    · intro other isWritten
      rw [dropOpenHandles, nextInode_modify]
      exact kept.known isWritten
  unfold Overlay.release
  dsimp only
  split <;> rename_i isOpen
  · exact closed
  · have after := congrFun dropped ino
    rw [Function.update_self] at after
    apply closed.reaps after
    obtain ⟨entry, found, shows⟩ := nodes_eq_some.mp after
    obtain ⟨_, _, _, _, openHandles⟩ := fileNode_eq_some.mp shows
    have noHandles : entry.eviction.openHandles = 0 := by
      simpa [hasOpenHandles, found, InodeEntry.hasOpenHandles] using isOpen
    exact openHandles.trans noHandles

/-! ## Renaming -/

/-- The replaced file is closed, so it goes. -/
theorem nodes_replaceTarget {table : InodeTable} (order : table.InOrder)
    {request : RenameRequest} {existing : InodeEntry}
    (looked : table.lookupChild request.newparent request.newname =
      some existing) (file : existing.kind ≠ .directory)
    (closed : existing.hasOpenHandles = false) (now : Time) :
    nodes (table.replaceTarget existing request now).2 =
      Function.update (nodes table) existing.inode none := by
  obtain ⟨_, gone, unlinkedNodes⟩ := nodes_unlinkOne order.wf looked file now
  have unlinkedOrder := order.unlinkOne (fun other lookedOther => by
    obtain rfl := Option.some.inj (looked.symm.trans lookedOther)
    exact file) now
  have noHandles : (table.unlinkOne request.newparent request.newname
      now).2.hasOpenHandles existing.inode = false := by
    rw [hasOpenHandles, gone]
    exact closed
  have orphan : ((table.unlinkOne request.newparent request.newname now).2.get
      existing.inode).any (·.nlink = 0) = true := by
    rw [gone]
    rfl
  unfold InodeTable.replaceTarget
  rw [if_neg file]
  dsimp only
  rw [noHandles, orphan]
  simp only [Bool.not_false, Bool.true_and, if_true]
  rw [nodes_removeOrphan unlinkedOrder gone, if_pos rfl, unlinkedNodes,
    Function.update_idem]

theorem Free.removed {node : Ino → Option FileNode} {path : Path}
    (free : Free node path) (ino : Ino) :
    Free (Function.update node ino none) path := by
  intro other file found
  by_cases same : other = ino
  · subst same
    rw [Function.update_self] at found
    cases found
  · rw [Function.update_of_ne same] at found
    exact free found

/-- Nothing but a file is replaced by a file. -/
theorem file_of_noConflict {noReplace : Bool} {kind : InodeKind}
    {existing : InodeEntry} (file : kind ≠ .directory)
    (allowed : destinationConflict noReplace kind existing = none) :
    existing.kind ≠ .directory := by
  intro directory
  unfold destinationConflict at allowed
  rw [directory] at allowed
  cases noReplace <;> cases kind <;> simp_all

theorem fitting_moveRenamed {table : InodeTable} (order : table.InOrder)
    {backing : PathStore Path Bytes} {handles : List OpenFile}
    {written : Ino → Option Bytes}
    (fitting : Fitting (nodes table) backing handles written)
    {info : RenameInfo} {request : RenameRequest}
    {source newParent : InodeEntry}
    (movable : table.Movable info request source newParent)
    (file : source.kind ≠ .directory)
    (freeOld : Free (nodes table) source.fullPath)
    (freeNew : Free (nodes table) info.newFullPath) (now : Time) :
    Fitting (nodes (table.moveRenamed info request now))
      (backing.rename source.fullPath info.newFullPath) handles written := by
  have shows := fileNode_of_file file
  have shown := (nodes_of_get movable.found).trans shows
  have linked : decide (0 < source.nlink) = true :=
    decide_eq_true ((order.live_of_nlink movable.found).mp movable.live)
  have moved : nodes (table.moveRenamed info request now) =
      Function.update (nodes table) info.ino (some
        { path := info.newFullPath
          linked := 0 < source.nlink
          dirty := source.isDirty
          openHandles := source.eviction.openHandles }) :=
    (nodes_moveRenamed order.wf now movable file).trans
      (congrArg _ (if_neg file))
  have unique : PathsUnique (nodes (table.moveRenamed info request now)) :=
    pathsUnique_nodes (movable.moveRenamed order.wf now).1
  rw [moved]
  apply fitting.moves (pathsUnique_nodes order.wf) shown linked freeOld
  intro other entry isOther foundOther
  cases otherLinked : entry.linked with
  | true =>
      intro same
      apply isOther
      rw [moved] at unique
      have foundAfter := foundOther
      rw [← Function.update_of_ne isOther (some _) (nodes table)] at foundAfter
      exact unique foundAfter (Function.update_self _ _ _) otherLinked linked
        same
  | false => exact freeNew foundOther otherLinked

theorem Kept.renames (kept : state.Kept) {request : RenameRequest} {now : Time}
    {source : InodeEntry}
    (looked : state.table.lookupChild request.parent request.name =
      some source) (file : source.kind ≠ .directory)
    (freeOld : state.Unclaimed source.fullPath)
    (freeNew : ∀ entry, state.table.get request.newparent = some entry →
      state.Unclaimed (childPath entry.fullPath request.newname))
    (closed : ∀ entry, state.table.lookupChild request.newparent
      request.newname = some entry → entry.hasOpenHandles = false)
    {next : Overlay} (renamed : state.rename request now = some next) :
    next.Kept := by
  have wf := kept.order.wf
  unfold Overlay.rename at renamed
  split at renamed
  · cases renamed
  rename_i info validated
  obtain ⟨src, newParentEntry, valid⟩ := renameValidate_eq_ok validated
  obtain rfl := Option.some.inj (looked.symm.trans valid.looked)
  split at renamed <;> rename_i same
  · obtain rfl := Option.some.inj renamed
    exact kept
  split at renamed
  · cases renamed
  obtain ⟨after, applied, rfl⟩ := Option.map_eq_some_iff.mp renamed
  simp only [InodeTable.applyOp, Option.ite_none_right_eq_some,
    Bool.and_eq_true, decide_eq_true_eq, valid.parent, Option.all_some]
    at applied
  obtain ⟨⟨directory, name⟩, applied⟩ := applied
  obtain ⟨dropped, moved, ok⟩ := valid.renameApplyLocal_ok wf now
  rw [ok] at applied
  obtain rfl := Option.some.inj applied
  have current := valid.current wf directory name
  have result := current.applied wf ok
  have order : moved.InOrder :=
    ⟨result.wellFormed wf, kept.order.counted.applied wf result⟩
  have oldPath : info.oldPath = source.fullPath := by
    rw [valid.info, renameInfo]
  have newFree : Free (nodes state.table) info.newFullPath := by
    rw [current.newFullPath]
    exact free_of_unclaimed (freeNew newParentEntry valid.parent)
  refine ⟨order, ?_, ?_⟩
  · dsimp only
    rw [oldPath]
    cases result with
    | sameInode lookedNew isSame => simp [lookedNew, isSame] at same
    | @free entry newEntry _ movable =>
        have isSource := (movable.found.symm.trans
          (current.ino ▸ (valid.source wf).1))
        obtain rfl := Option.some.inj isSource
        exact fitting_moveRenamed kept.order kept.fitting movable file
          (free_of_unclaimed freeOld) newFree now
    | @replaced existing entry newEntry lookedNew different pruned movable =>
        have existingFile := file_of_noConflict file
          (valid.noConflict existing lookedNew)
        have isClosed := closed existing lookedNew
        obtain ⟨_, foundParent, _, isChild⟩ := wf.lookupChild.mp lookedNew
        obtain rfl := Option.some.inj (foundParent.symm.trans valid.parent)
        have existingPath : existing.fullPath = info.newFullPath :=
          isChild.fullPath.trans current.newFullPath.symm
        have foundExisting : state.table.get existing.inode = some existing :=
          isChild.found
        have shownExisting := (nodes_of_get foundExisting).trans
          (fileNode_of_file existingFile)
        have existingLinked : decide (0 < existing.nlink) = true :=
          decide_eq_true ((kept.order.live_of_nlink foundExisting).mp
            isChild.live)
        have replaced := nodes_replaceTarget kept.order lookedNew existingFile
          isClosed now
        have replacedOrder :
            (state.table.replaceTarget existing request now).2.InOrder :=
          ⟨wf.pruned pruned, kept.order.counted.replaceTarget wf lookedNew now⟩
        have fitting := kept.fitting.drops shownExisting
          (by simpa [InodeEntry.hasOpenHandles] using isClosed) (by
            intro other live isOther foundLive linked samePath
            exact absurd (pathsUnique_nodes wf foundLive shownExisting linked
              existingLinked samePath) isOther)
        rw [← replaced] at fitting
        have foundSource : state.table.get info.ino = some source :=
          current.ino ▸ (valid.source wf).1
        obtain ⟨again, foundAgain, place, _⟩ :=
          pruned.kept (Ne.symm different) foundSource
        obtain rfl := Option.some.inj (foundAgain.symm.trans movable.found)
        have apart : source.fullPath ≠ info.newFullPath := by
          intro samePath
          apply different
          exact (wf.unique foundExisting foundSource isChild.live
            (valid.source wf).2.2.1 (existingPath.trans samePath.symm))
        have moved := fitting_moveRenamed replacedOrder fitting movable
          (place.kind ▸ file) (by
            rw [place.fullPath, replaced]
            exact Free.removed (free_of_unclaimed freeOld) _) (by
            rw [replaced]
            exact Free.removed newFree _) now
        rw [place.fullPath, existingPath, PathStore.rename_remove apart]
          at moved
        exact moved
  · intro other isWritten
    have tapers := tapers_renameApplyLocal (fun entry found => by
      obtain rfl := Option.some.inj (found.symm.trans valid.parent)
      exact directory) ok
    rw [tapers.nextInode]
    exact kept.known isWritten

end

/-! ## Runs -/

theorem step_kept (state : Overlay) (event : OverlayEvent) (next : Overlay)
    (kept : state.Kept) (apart : state.Apart event)
    (stepped : state.step event = some next) : next.Kept := by
  cases event with
  | list parent name kind size mtime xetHash mode uid gid now =>
      simp only [step] at stepped
      split at stepped
      · cases stepped
      rename_i parentEntry found
      simp only [Option.ite_none_right_eq_some, Option.some.injEq] at stepped
      obtain ⟨⟨directory, valid⟩, rfl⟩ := stepped
      exact kept.lists found directory valid kind size mtime xetHash mode uid
        gid now
  | create parent name mode uid gid now =>
      simp only [step] at stepped
      split at stepped
      · cases stepped
      rename_i parentEntry found
      simp only [Option.ite_none_right_eq_some, Option.some.injEq,
        Option.isNone_iff_eq_none] at stepped
      obtain ⟨⟨directory, valid, free⟩, rfl⟩ := stepped
      exact kept.creates found directory valid free (apart parentEntry found)
        mode uid gid now
  | openWrite ino truncate now =>
      simp only [step] at stepped
      split at stepped
      · cases stepped
      rename_i entry found
      obtain ⟨isFile, opened⟩ := Option.ite_none_right_eq_some.mp stepped
      exact kept.opensWrite found isFile (apart entry found) opened
  | openReadonly ino =>
      simp only [step] at stepped
      split at stepped
      · cases stepped
      rename_i entry found
      obtain ⟨isFile, opened⟩ := Option.ite_none_right_eq_some.mp stepped
      exact kept.opensReadonly found isFile opened
  | write handle offset data =>
      simp only [step, Option.ite_none_right_eq_some] at stepped
      obtain ⟨member, stepped⟩ := stepped
      obtain ⟨file, writable, rfl⟩ := Option.map_eq_some_iff.mp stepped
      exact kept.writes member writable offset data
  | unlink parent name now =>
      simp only [step] at stepped
      split at stepped
      · cases stepped
      rename_i entry looked
      simp only [Option.ite_none_left_eq_some, not_or, Option.some.injEq]
        at stepped
      obtain ⟨⟨file, _⟩, rfl⟩ := stepped
      exact kept.unlinks looked file now
  | rename request now =>
      simp only [step] at stepped
      split at stepped <;> rename_i same
      · obtain rfl := Option.some.inj stepped
        exact kept
      split at stepped
      · cases stepped
      rename_i source looked
      simp only [Option.ite_none_left_eq_some, not_or] at stepped
      obtain ⟨⟨file, _⟩, renamed⟩ := stepped
      obtain ⟨freeOld, freeNew, closed⟩ := apart.resolve_left same
      exact kept.renames looked file (freeOld source looked) freeNew closed
        renamed
  | release handle =>
      simp only [step, Option.ite_none_right_eq_some, Option.some.injEq]
        at stepped
      obtain ⟨member, rfl⟩ := stepped
      exact kept.releases member

theorem kept_initial {state : Overlay} (initial : state.Initial) :
    state.Kept := by
  refine ⟨initial.order, ⟨initial.separate, ?_, ?_, ?_⟩, ?_⟩
  · intro ino file shown
    obtain ⟨entry, found, shows⟩ := nodes_eq_some.mp shown
    obtain ⟨_, _, _, _, openHandles⟩ := fileNode_eq_some.mp shows
    have noHandle : ∀ {number : Option Nat},
        (⟨ino, number⟩ : OpenFile) ∉ state.handles := by
      intro number
      rw [initial.noHandles]
      exact List.not_mem_nil
    constructor
    · intro _ content isWritten
      rw [initial.unwritten] at isWritten
      cases isWritten
    · exact fun _ _ member => absurd member noHandle
    · exact fun _ _ _ member => absurd member noHandle
    · exact fun member => absurd member noHandle
    · rw [openHandles, initial.closed ino entry found, initial.noHandles]
      rfl
  · intro _ other _ _ _ _ _ _ _
    exact initial.unwritten other
  · rw [initial.noHandles]
    exact fun _ member => absurd member List.not_mem_nil
  · intro ino isWritten
    rw [initial.unwritten] at isWritten
    cases isWritten

/-- In every run whose calls keep away from the paths of unlinked files that
are still open, the backing directory has every live file that was created or
opened for writing, with what was written. -/
theorem backing_kept_of_apart {state final : Overlay}
    {events : List OverlayEvent} (initial : state.Initial)
    (apart : AllSteps step Apart state events)
    (run : exec step state events = some final) : final.KeepsWritten :=
  (exec_invariant step_kept (kept_initial initial) apart run).keepsWritten

def mounted : Overlay where
  table := .new
  backing :=
    { file := fun _ => none
      content := fun _ => []
      next := 0 }
  handles := []
  written := fun _ => none

theorem initial_mounted : mounted.Initial := by
  refine ⟨inOrder_new, ?_, ?_, rfl, fun _ => rfl, nofun, nofun⟩
  · intro ino entry found
    rw [(eq_root_of_get_new found).2]
    rfl
  · intro ino entry found
    rw [(eq_root_of_get_new found).2]
    decide

/-- The file `a` is created, written and unlinked while it is open. -/
def unlinkedWhileOpen : List OverlayEvent :=
  [.create rootInode ['a'] 420 0 0 0,
    .write ⟨2, some 0⟩ 0 [1],
    .unlink rootInode ['a'] 1]

/-- The handle is closed before `a` is created again and moved to `b`. -/
def recreatedAfterClose : List OverlayEvent :=
  [.release ⟨2, some 0⟩,
    .create rootInode ['a'] 420 0 0 2,
    .write ⟨3, some 1⟩ 0 [2, 3],
    .rename ⟨rootInode, ['a'], rootInode, ['b'], false⟩ 3,
    .release ⟨3, some 1⟩]

theorem backing_kept_of_apart_recreated :
    ((exec step mounted (unlinkedWhileOpen ++ recreatedAfterClose)).get
      (by decide)).KeepsWritten :=
  backing_kept_of_apart initial_mounted (by decide) (Option.some_get _).symm

/-- The handle is closed after `a` has been created again. -/
def recreatedWhileOpen : List OverlayEvent :=
  [.create rootInode ['a'] 420 0 0 2,
    .write ⟨3, some 0⟩ 0 [2, 3],
    .release ⟨2, some 0⟩]

/-- The last close of the unlinked file removes the new file. -/
theorem backing_not_kept : ¬ ∀ (events : List OverlayEvent) (final : Overlay),
    exec step mounted events = some final → final.KeepsWritten := by
  intro claim
  have kept := claim (unlinkedWhileOpen ++ recreatedWhileOpen) _
    (Option.some_get (by decide)).symm
  obtain ⟨file, found, _⟩ :=
    kept 3 _ [2, 3] rfl (by decide) (by decide) (by decide) (by decide)
  cases found

end HfMount.Vfs.Overlay
