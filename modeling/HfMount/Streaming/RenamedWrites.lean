import HfMount.Streaming.Calls
import HfMount.Vfs.Calls
import HfMount.Vfs.DirectoryRename
import HfMount.Vfs.InstalledListing

/-!
# Renames of a file that is being rewritten

Without advanced writes an O_TRUNC open takes the hash off the inode, and keeps
it in the snapshot that a failed commit goes back to.  A rename leaves a dirty
file to its commit, and notes the old path for it when the inode has a hash.
-/

namespace HfMount.Inode

open SlashPath Vfs

open Streaming (InodeSnapshot)

namespace InodeEntry

/-- The inode of a file that an O_TRUNC open starts to rewrite. -/
def startRewrite (entry : InodeEntry) : InodeEntry :=
  { entry.setDirty with
    size := 0
    xetHash := none }

def snapshot (entry : InodeEntry) : InodeSnapshot :=
  { xetHash := entry.xetHash
    size := entry.size
    mtime := entry.mtime
    pendingDeletes := entry.pendingDeletes
    existedBefore := true }

def revert (entry : InodeEntry) (snapshot : InodeSnapshot) : InodeEntry :=
  { entry with
    xetHash := snapshot.xetHash
    size := snapshot.size
    mtime := snapshot.mtime
    pendingDeletes := snapshot.pendingDeletes
    dirtyGeneration := 0 }

end InodeEntry

namespace InodeTable

section

variable {table : InodeTable} {info : RenameInfo} {request : RenameRequest}

theorem get_modify_of_found {ino : Ino} {entry : InodeEntry}
    (found : table.get ino = some entry)
    (change : InodeEntry → InodeEntry) :
    (table.modify ino change).get ino = some (change entry) := by
  rw [get_modify, if_pos rfl, found]
  rfl

/-! ## A rename leaves an inode without a hash alone -/

theorem get_recordOldPath {ino : Ino} {entry : InodeEntry}
    (found : table.get ino = some entry)
    (hashless : info.ino = ino → info.xetHash = none) :
    (table.recordOldPath info).get ino = some entry := by
  unfold recordOldPath
  split <;> rename_i owes
  · have different : ino ≠ info.ino := by
      intro same
      simp [hashless same.symm] at owes
    rw [get_modify_of_ne _ different]
    exact found
  · exact found

theorem get_recordDescendant {ino child : Ino} {entry : InodeEntry}
    (found : table.get ino = some entry) (hashless : entry.xetHash = none) :
    (table.recordDescendant child).get ino = some entry := by
  unfold recordDescendant
  split <;> rename_i foundChild
  · split <;> rename_i owes
    · have different : ino ≠ child := by
        rintro rfl
        obtain rfl := Option.some.inj (found.symm.trans foundChild)
        simp [InodeEntry.owesDelete, hashless] at owes
      rw [get_modify_of_ne _ different]
      exact found
    · exact found
  · exact found

theorem get_record {ino : Ino} {entry : InodeEntry}
    (found : table.get ino = some entry) (hashless : entry.xetHash = none)
    (source : info.ino = ino → info.xetHash = none) :
    ((table.recordOldPath info).recordDescendants info).get ino =
      some entry := by
  have folded : ∀ (inos : List Ino) (table : InodeTable),
      table.get ino = some entry →
      (inos.foldl recordDescendant table).get ino = some entry := by
    intro inos
    induction inos with
    | nil => exact fun _ found => found
    | cons child inos ih =>
        exact fun table found => ih _ (get_recordDescendant found hashless)
  have recorded := get_recordOldPath found source
  unfold recordDescendants
  split
  · exact folded _ _ recorded
  · exact recorded

/-- Moving the source moves the path of a file below it, and nothing else of
it. -/
theorem Movable.node_moveRenamed {entry newEntry : InodeEntry}
    (movable : table.Movable info request entry newEntry)
    (wf : table.WellFormed) (now : Time) {ino : Ino} {node : Node}
    (below : table.Below info.ino ino) (found : table.node ino = some node)
    (hashless : node.hash = none)
    (source : info.ino = ino → info.xetHash = none) :
    (table.moveRenamed info request now).node ino = some { node with
      path := rebase entry.fullPath info.newFullPath node.path } := by
  obtain ⟨_, recorded, moved, recordedDef, _, _, isMoved, result⟩ :=
    movable.moveRenamed wf now
  obtain ⟨lower, foundLower, live, rfl⟩ := node_eq_some.mp found
  have similar : table.Similar recorded :=
    (recordedDef ▸ table.owing_record info : Corresponding InodeEntry.Owing
      table recorded).mono fun _ _ same => same.sameNode
  have noted : recorded.get ino = some lower := by
    rw [recordedDef]
    exact get_record foundLower hashless source
  obtain ⟨target, foundTarget, same, whenBelow, _⟩ := isMoved.kept noted
  have path := whenBelow ((Corresponding.below similar).mpr below)
  rw [result, node_touchRenamed, node_of_get foundTarget
    (same.isLive.trans live)]
  simp only [InodeEntry.toNode, InodeEntry.childrenLoaded, same.kind, path,
    same.xetHash, same.dirtyGeneration, same.pendingDeletes,
    same.childrenLoadedAt]

/-- A validated rename of a file without a hash, or of a directory above it,
changes at most the path of the file. -/
theorem Validated.node_applied {src newParentEntry : InodeEntry}
    (valid : table.Validated request info src newParentEntry)
    (order : table.InOrder) (newParent : newParentEntry.kind = .directory)
    (name : ValidName request.newname) {now : Time} {dropped : Option Ino}
    {after : InodeTable}
    (ok : table.renameApplyLocal info request now = .ok (dropped, after))
    {ino : Ino} {node : Node} (below : table.Below src.inode ino)
    (found : table.node ino = some node) (hashless : node.hash = none) :
    after.InOrder ∧
      ∃ path, after.node ino = some { node with path := path } := by
  have current := valid.current order.wf newParent name
  have applied := current.applied order.wf ok
  refine ⟨⟨applied.wellFormed order.wf,
    order.counted.applied order.wf applied⟩, ?_⟩
  have source : info.ino = ino → info.xetHash = none := by
    intro same
    obtain ⟨entry, foundEntry, _, rfl⟩ := node_eq_some.mp found
    obtain ⟨foundSrc, _⟩ := valid.source order.wf
    rw [← current.ino, same, foundEntry] at foundSrc
    obtain rfl := Option.some.inj foundSrc
    rw [valid.info]
    exact hashless
  rw [← current.ino] at below
  cases applied with
  | sameInode => exact ⟨node.path, found⟩
  | free _ movable =>
      exact ⟨_, movable.node_moveRenamed order.wf now below found hashless
        source⟩
  | @replaced existing _ _ looked different pruned movable =>
      have stays : ino ≠ existing.inode := by
        intro same
        rw [same, current.ino] at below
        rw [current.ino] at different
        exact valid.replaced_not_below order.wf newParent looked different
          below
      have foundKept := (Pruned.node pruned ino).2 stays
      rw [found] at foundKept
      exact ⟨_, movable.node_moveRenamed (order.wf.pruned pruned) now
        (Pruned.below_of_kept pruned below stays) foundKept hashless source⟩

end

end InodeTable

end HfMount.Inode

namespace HfMount.Vfs

open SlashPath Inode Transition

open Streaming (InodeSnapshot XetFileInfo)

namespace VirtualFs

/-! ## The calls -/

/-- A whole rename; `hub` is the error of a Hub that refuses the batch. -/
def rename (vfs : VirtualFs) (request : RenameRequest) (hub : Option Errno)
    (now : Time) : Option Errno × VirtualFs :=
  if request.parent = request.newparent ∧ request.name = request.newname then
    (none, vfs)
  else
    match vfs.table.renameValidate request with
    | .error errno => (some errno, vfs)
    | .ok info =>
        if vfs.renameSameInode info request then (none, vfs)
        else
          match hub.filter fun _ => !info.remoteOps.isEmpty with
          | some errno => (some errno, vfs)
          | none => (vfs.renameRemote info).renameApply info request now

/-- `open` with O_TRUNC, as far as the inode is concerned. -/
def openRewrite (vfs : VirtualFs) (ino : Ino) : VirtualFs :=
  { vfs with table := vfs.table.modify ino (·.startRewrite) }

/-- `streamingCommit` when the Hub takes the batch; the inode has to be linked
and the writer's still. -/
def streamingCommit (vfs : VirtualFs) (ino : Ino) (generation : Nat)
    (info : XetFileInfo) (now : Time) : VirtualFs :=
  match vfs.table.get ino with
  | none => vfs
  | some entry =>
      if entry.nlink = 0 ∨ entry.dirtyGeneration ≠ generation then vfs
      else { vfs with
        remote := batchOperations vfs.remote
          (.addFile entry.fullPath info.hash ::
            entry.pendingDeletes.map .deleteFile)
        table := vfs.table.modify ino fun current =>
          current.applyCommit info.hash info.fileSize generation now }

def revertInode (vfs : VirtualFs) (ino : Ino) (snapshot : InodeSnapshot) :
    VirtualFs :=
  { vfs with table := if snapshot.existedBefore then
      vfs.table.modify ino (·.revert snapshot) else vfs.table.remove ino }

/-- A rename that does not return early. -/
theorem rename_cases {vfs : VirtualFs} (order : vfs.table.InOrder)
    {request : RenameRequest}
    (directory : ∀ entry ∈ vfs.table.get request.newparent,
      entry.kind = .directory) (hub : Option Errno) (now : Time) :
    (vfs.rename request hub now).2 = vfs ∨
      ∃ info src newParentEntry dropped after,
        vfs.table.renameValidate request = .ok info ∧
        vfs.table.Validated request info src newParentEntry ∧
        newParentEntry.kind = .directory ∧
        vfs.table.renameApplyLocal info request now = .ok (dropped, after) ∧
        (vfs.rename request hub now).2.table = after ∧
        (vfs.rename request hub now).2.remote =
          batchOperations vfs.remote info.remoteOps := by
  unfold rename
  split
  · exact Or.inl rfl
  split <;> rename_i validated
  · exact Or.inl rfl
  split
  · exact Or.inl rfl
  split
  · exact Or.inl rfl
  rename_i info _ _ _
  obtain ⟨src, newParentEntry, isValid⟩ :=
    InodeTable.renameValidate_eq_ok validated
  obtain ⟨dropped, after, ok⟩ := isValid.renameApplyLocal_ok order.wf now
  refine Or.inr ⟨info, src, newParentEntry, dropped, after, validated, isValid,
    directory _ isValid.parent, ok, ?_⟩
  unfold renameRemote renameApply
  dsimp only
  rw [ok]
  exact ⟨rfl, rfl⟩

end VirtualFs

/-- A path that the file has had since it was opened, and what the remote had
there when the file arrived. -/
structure Place where
  path : Path
  had : Option Hash
  deriving DecidableEq

/-- A file that is being rewritten. -/
structure Rewrite where
  vfs : VirtualFs
  places : List Place

/-- `other` stands for the writes, for directory loads and for what other calls
and the remote do in the meantime. -/
inductive RewriteEvent where
  | rename (request : RenameRequest) (hub : Option Errno) (now : Time)
  | other (table : InodeTable) (remote : Remote)

namespace Rewrite

/-- Where the file is now. -/
def arrival (vfs : VirtualFs) (ino : Ino) : List Place :=
  match vfs.table.get ino with
  | some entry => [⟨entry.fullPath, vfs.remote entry.fullPath⟩]
  | none => []

def start (vfs : VirtualFs) (ino : Ino) : Rewrite :=
  { vfs := vfs.openRewrite ino
    places := arrival (vfs.openRewrite ino) ino }

def step (ino : Ino) (state : Rewrite) : RewriteEvent → Option Rewrite
  | .rename request hub now => some
      { vfs := (state.vfs.rename request hub now).2
        places := state.places ++
          arrival (state.vfs.rename request hub now).2 ino }
  | .other table remote => some { state with
      vfs := { state.vfs with
        table
        remote } }

/-- The rename is one of the file or of a directory above it, and moves no other
file from or to a path that the file has had. -/
def MovesFile (ino : Ino) (state : Rewrite) (request : RenameRequest) : Prop :=
  ValidName request.newname ∧
    (∀ entry ∈ state.vfs.table.get request.newparent,
      entry.kind = .directory) ∧
    (∀ src ∈ state.vfs.table.lookupChild request.parent request.name,
      AtOrAbove state.vfs.table src.inode ino) ∧
    ∀ info ∈ (state.vfs.table.renameValidate request).toOption,
      ∀ op ∈ info.remoteOps, ∀ place ∈ state.places, op.path ≠ place.path

instance (ino : Ino) (state : Rewrite) (request : RenameRequest) :
    Decidable (MovesFile ino state request) :=
  inferInstanceAs (Decidable (_ ∧ _ ∧ _ ∧ _))

/-- The other steps leave the file, and the remote at its paths, alone. -/
def Fits (ino : Ino) (state : Rewrite) : RewriteEvent → Prop
  | .rename request _ _ => MovesFile ino state request
  | .other table remote =>
      table.InOrder ∧ table.node ino = state.vfs.table.node ino ∧
        ∀ place ∈ state.places,
          remote place.path = state.vfs.remote place.path

/-- After the commit the remote has the new content at the path of the file and
nothing at the others; after a commit that failed, the inode is that of a file
that the remote has. -/
structure Settles (ino : Ino) (snapshot : InodeSnapshot) (generation : Nat)
    (info : XetFileInfo) (now : Time) (state : Rewrite) : Prop where
  committed : ∃ entry,
    (state.vfs.streamingCommit ino generation info now).table.get ino =
      some entry ∧
    (state.vfs.streamingCommit ino generation info now).remote
      entry.fullPath = some info.hash ∧
    ∀ place ∈ state.places, place.path ≠ entry.fullPath →
      (state.vfs.streamingCommit ino generation info now).remote place.path =
        none
  reverted : ∃ entry hash,
    (state.vfs.revertInode ino snapshot).table.get ino = some entry ∧
    entry.xetHash = some hash ∧
    (state.vfs.revertInode ino snapshot).remote entry.fullPath = some hash

/-! ## The file while it is being rewritten -/

/-- Only the path of the node changes, and the remote keeps what it had at each
path. -/
structure Written (ino : Ino) (node : Node) (first : Place) (state : Rewrite) :
    Prop where
  order : state.vfs.table.InOrder
  node : ∃ path, state.vfs.table.node ino = some { node with path } ∧
    ⟨path, state.vfs.remote path⟩ ∈ state.places
  held : ∀ place ∈ state.places, state.vfs.remote place.path = place.had
  first : first ∈ state.places

theorem arrival_of_node {vfs : VirtualFs} {ino : Ino} {node : Node}
    (found : vfs.table.node ino = some node) :
    arrival vfs ino = [⟨node.path, vfs.remote node.path⟩] := by
  obtain ⟨entry, foundEntry, _, rfl⟩ := InodeTable.node_eq_some.mp found
  unfold arrival
  rw [foundEntry]
  rfl

theorem written_start {vfs : VirtualFs} (order : vfs.table.InOrder) {ino : Ino}
    {entry : InodeEntry} (found : vfs.table.get ino = some entry)
    (live : entry.isLive = true) :
    Written ino entry.startRewrite.toNode
      ⟨entry.fullPath, vfs.remote entry.fullPath⟩ (start vfs ino) := by
  have foundOpened : (vfs.openRewrite ino).table.node ino =
      some entry.startRewrite.toNode := by
    unfold VirtualFs.openRewrite
    rw [InodeTable.node_modify_of_live found live, if_pos rfl]
  have places : (start vfs ino).places =
      [⟨entry.fullPath, vfs.remote entry.fullPath⟩] :=
    arrival_of_node foundOpened
  constructor
  · apply order.update
    intro other
    exact .of_fields rfl
  · refine ⟨entry.fullPath, foundOpened, ?_⟩
    rw [places]
    exact List.mem_cons_self
  · rw [places]
    intro place member
    rw [List.mem_singleton.mp member]
    rfl
  · rw [places]
    exact List.mem_cons_self

theorem written_step {ino : Ino} {node : Node} (hashless : node.hash = none)
    {first : Place} {state next : Rewrite} {event : RewriteEvent}
    (written : Written ino node first state) (fits : state.Fits ino event)
    (stepped : step ino state event = some next) :
    Written ino node first next := by
  obtain ⟨path, found, here⟩ := written.node
  cases event with
  | rename request hub now =>
      obtain rfl := Option.some.inj stepped
      obtain ⟨valid, directory, above, apart⟩ := fits
      have arrived : ∀ (path : Path),
          (state.vfs.rename request hub now).2.table.node ino =
            some { node with path } →
          (state.vfs.rename request hub now).2.table.InOrder →
          (∀ place ∈ state.places, (state.vfs.rename request hub now).2.remote
            place.path = state.vfs.remote place.path) →
          Written ino node first
            { vfs := (state.vfs.rename request hub now).2
              places := state.places ++
                arrival (state.vfs.rename request hub now).2 ino } := by
        intro newPath foundAfter order same
        rw [arrival_of_node foundAfter]
        refine ⟨order, ⟨newPath, foundAfter, ?_⟩, ?_,
          List.mem_append_left _ written.first⟩
        · exact List.mem_append_right _ List.mem_cons_self
        · intro place member
          rcases List.mem_append.mp member with earlier | last
          · exact (same place earlier).trans (written.held place earlier)
          · rw [List.mem_singleton.mp last]
      rcases VirtualFs.rename_cases written.order directory hub now with
        same | ⟨info, src, newParentEntry, dropped, after, validated, isValid,
          isDirectory, ok, table, remote⟩
      · apply arrived path
        · rw [same]
          exact found
        · rw [same]
          exact written.order
        · intro _ _
          rw [same]
      · have below := InodeTable.mem_descendants_below
          (above src isValid.looked)
        obtain ⟨order, newPath, foundAfter⟩ := isValid.node_applied
          written.order isDirectory valid ok below found hashless
        apply arrived newPath (table ▸ foundAfter) (table ▸ order)
        intro place member
        rw [remote]
        have untouched : ∀ op ∈ info.remoteOps, op.path ≠ place.path := by
          intro op isOp
          apply apart info _ op isOp place member
          rw [validated]
          rfl
        apply batch_of_untouched
        · exact fun hash isOp => untouched _ isOp rfl
        · exact fun isOp => untouched _ isOp rfl
  | other table remote =>
      obtain rfl := Option.some.inj stepped
      obtain ⟨order, node, same⟩ := fits
      refine ⟨order, ⟨path, node.trans found, ?_⟩, ?_, written.first⟩
      · have kept := same _ here
        dsimp only at kept ⊢
        rw [kept]
        exact here
      · exact fun place member =>
          (same place member).trans (written.held place member)

/-! ## What the commit leaves -/

/-- The inode of the file, when its commit is about to be sent. -/
structure Pending (ino : Ino) (generation : Nat) (entry : InodeEntry)
    (vfs : VirtualFs) : Prop where
  found : vfs.table.get ino = some entry
  linked : entry.nlink ≠ 0
  generation : entry.dirtyGeneration = generation
  nothingOwed : entry.pendingDeletes = []

theorem pending_of_node {vfs : VirtualFs} {ino : Ino} {node : Node}
    (found : vfs.table.node ino = some node) (file : node.kind = .file)
    (nothingOwed : node.pending = []) :
    ∃ entry, Pending ino node.generation entry vfs ∧
      entry.fullPath = node.path := by
  obtain ⟨entry, foundEntry, live, rfl⟩ := InodeTable.node_eq_some.mp found
  refine ⟨entry, ⟨foundEntry, ?_, rfl, nothingOwed⟩, rfl⟩
  have isFile : entry.kind = .file := file
  simpa [InodeEntry.isLive, isFile, Nat.pos_iff_ne_zero] using live

/-- The commit adds the content at the path of the file, and deletes nothing. -/
theorem streamingCommit_of_pending {vfs : VirtualFs} {ino : Ino}
    {generation : Nat} {entry : InodeEntry}
    (pending : Pending ino generation entry vfs) (info : XetFileInfo)
    (now : Time) :
    (∃ after, (vfs.streamingCommit ino generation info now).table.get ino =
      some after ∧ after.fullPath = entry.fullPath) ∧
      (vfs.streamingCommit ino generation info now).remote =
        Function.update vfs.remote entry.fullPath (some info.hash) := by
  have allowed : ¬ (entry.nlink = 0 ∨ entry.dirtyGeneration ≠ generation) :=
    not_or.mpr ⟨pending.linked, not_not.mpr pending.generation⟩
  unfold VirtualFs.streamingCommit
  rw [pending.found]
  dsimp only
  rw [if_neg allowed, pending.nothingOwed]
  refine ⟨⟨_, InodeTable.get_modify_of_found pending.found _, ?_⟩, rfl⟩
  rw [InodeEntry.applyCommit_of_eq pending.generation]
  rfl

theorem revertInode_of_pending {vfs : VirtualFs} {ino : Ino} {generation : Nat}
    {entry : InodeEntry} (pending : Pending ino generation entry vfs)
    {snapshot : InodeSnapshot} (existed : snapshot.existedBefore = true) :
    (vfs.revertInode ino snapshot).table.get ino =
      some (entry.revert snapshot) := by
  unfold VirtualFs.revertInode
  rw [if_pos existed]
  exact InodeTable.get_modify_of_found pending.found _

/-- The remote is right after the commit, and after a failed one, if and only
if the file is back at its first path and the remote had nothing at any other
path when the file got there. -/
theorem settles_iff {vfs : VirtualFs} {ino : Ino} {entry : InodeEntry}
    {hash : Hash} {info : XetFileInfo} {now : Time}
    {events : List RewriteEvent} {final : Rewrite}
    (order : vfs.table.InOrder) (found : vfs.table.get ino = some entry)
    (live : entry.isLive = true) (file : entry.kind = .file)
    (hashed : entry.xetHash = some hash)
    (nothingOwed : entry.pendingDeletes = [])
    (onRemote : vfs.remote entry.fullPath = some hash)
    (fits : AllSteps (step ino) (Fits ino) (start vfs ino) events)
    (ran : exec (step ino) (start vfs ino) events = some final) :
    Settles ino entry.snapshot entry.startRewrite.dirtyGeneration info now
        final ↔
      (final.vfs.table.get ino).map (·.fullPath) = some entry.fullPath ∧
        ∀ place ∈ final.places, place.path ≠ entry.fullPath →
          place.had = none := by
  have written : Written ino entry.startRewrite.toNode
      ⟨entry.fullPath, vfs.remote entry.fullPath⟩ final :=
    exec_invariant (fun _ _ _ written fit stepped =>
        written_step rfl written fit stepped)
      (written_start order found live) fits ran
  obtain ⟨path, foundNode, _⟩ := written.node
  obtain ⟨current, isPending, _⟩ := pending_of_node foundNode file nothingOwed
  have pending : Pending ino entry.startRewrite.dirtyGeneration current
      final.vfs := isPending
  obtain ⟨⟨after, foundAfter, samePath⟩, remote⟩ :=
    streamingCommit_of_pending pending info now
  have first := written.held _ written.first
  rw [onRemote] at first
  rw [pending.found]
  constructor
  · rintro ⟨⟨again, foundAgain, _, gone⟩, _⟩
    obtain rfl := Option.some.inj (foundAfter.symm.trans foundAgain)
    rw [samePath, remote] at gone
    have elsewhere : ∀ place ∈ final.places, place.path ≠ current.fullPath →
        place.had = none := by
      intro place member different
      rw [← written.held place member]
      exact (Function.update_of_ne different _ _).symm.trans
        (gone place member different)
    have back : current.fullPath = entry.fullPath := by
      by_contra different
      have lost := elsewhere _ written.first (Ne.symm different)
      rw [onRemote] at lost
      cases lost
    rw [← back]
    exact ⟨rfl, elsewhere⟩
  · rintro ⟨back, elsewhere⟩
    have same : current.fullPath = entry.fullPath := Option.some.inj back
    constructor
    · refine ⟨after, foundAfter, ?_⟩
      rw [samePath, remote]
      refine ⟨Function.update_self _ _ _, ?_⟩
      intro place member different
      rw [Function.update_of_ne different, written.held place member]
      exact elsewhere place member (same ▸ different)
    · refine ⟨_, hash, revertInode_of_pending pending rfl, hashed, ?_⟩
      have keptPath : (current.revert entry.snapshot).fullPath =
          entry.fullPath := same
      rw [keptPath]
      exact first

/-- The remote has one file, and the table knows it. -/
def rewritable : VirtualFs :=
  { table := (InodeTable.new.insert rootInode ['a'] ['a'] .file 1 0
      (some ['h']) 420 0 0 0).2
    flushManager := .new
    staging := fun _ => none
    remote := fun path => if path = ['a'] then some ['h'] else none }

def remoteFile : InodeEntry :=
  (rewritable.table.get 2).get (by decide)

theorem inOrder_rewritable : rewritable.table.InOrder := by
  apply @InodeTable.InOrder.insert .new InodeTable.inOrder_new rootInode ['a']
    ['a'] _ rfl rfl (by decide)
  intro _
  rfl

def moved (name newname : Name) : RewriteEvent :=
  .rename ⟨rootInode, name, rootInode, newname, false⟩ none 1

/-- The file is renamed and renamed back. -/
def movedBack : List RewriteEvent :=
  [moved ['a'] ['b'], moved ['b'] ['a']]

theorem settles_movedBack :
    Settles 2 remoteFile.snapshot 1 ⟨['n'], 3⟩ 2
      ((exec (step 2) (start rewritable 2) movedBack).get (by decide)) := by
  have fits : AllSteps (step 2) (Fits 2) (start rewritable 2) movedBack := by
    refine ⟨show MovesFile _ _ _ by decide, ?_⟩
    intro next stepped
    obtain rfl := Option.some.inj stepped
    exact ⟨show MovesFile _ _ _ by decide, fun _ _ => trivial⟩
  have settles := @settles_iff rewritable 2 remoteFile ['h'] ⟨['n'], 3⟩ 2
    movedBack _ inOrder_rewritable (Option.some_get _).symm (by decide)
    (by decide) (by decide) (by decide) (by decide) fits
    (Option.some_get (by decide)).symm
  exact settles.mpr (by decide)

/-- After one rename the commit leaves the old path on the remote. -/
theorem not_settles : ¬ ∀ (vfs : VirtualFs) (ino : Ino) (entry : InodeEntry)
    (hash : Hash) (info : XetFileInfo) (now : Time)
    (events : List RewriteEvent) (final : Rewrite),
    vfs.table.InOrder → vfs.table.get ino = some entry →
    entry.isLive = true → entry.kind = .file → entry.xetHash = some hash →
    entry.pendingDeletes = [] → vfs.remote entry.fullPath = some hash →
    AllSteps (step ino) (Fits ino) (start vfs ino) events →
    exec (step ino) (start vfs ino) events = some final →
    Settles ino entry.snapshot entry.startRewrite.dirtyGeneration info now
      final := by
  intro claim
  have fits : AllSteps (step 2) (Fits 2) (start rewritable 2)
      [moved ['a'] ['b']] :=
    ⟨show MovesFile _ _ _ by decide, fun _ _ => trivial⟩
  obtain ⟨⟨entry, found, _, gone⟩, _⟩ := claim rewritable 2 remoteFile ['h']
    ⟨['n'], 3⟩ 2 [moved ['a'] ['b']]
    ((exec (step 2) (start rewritable 2) [moved ['a'] ['b']]).get (by decide))
    inOrder_rewritable (Option.some_get _).symm (by decide) (by decide)
    (by decide) (by decide) (by decide) fits (Option.some_get _).symm
  have path : entry.fullPath = ['b'] := by
    obtain rfl := Option.some.inj found
    rfl
  have left := gone ⟨['a'], some ['h']⟩ (by decide) (by rw [path]; decide)
  cases left

end Rewrite

end HfMount.Vfs
