import HfMount.Vfs.InstalledListing

/-!
# Lookups that ask the remote

A lookup that the inode table cannot answer probes the path with a HEAD
request, and with a listing of the path when the parent is loaded and the HEAD
missed.  What the probe finds is inserted in the table that the other
operations have left in the meantime.  A name that was found missing stays in
the negative cache for a while.
-/

namespace HfMount.Vfs

open SlashPath Inode Poll

/-- A lookup that has passed the negative cache and waits for the Hub.
`listed` says that the parent was loaded when the name was not found. -/
structure LookupCall where
  parent : Ino
  name : Name
  fullPath : Path
  listed : Bool
  deriving DecidableEq

/-- The first part of `lookup`: the call that goes on to the Hub, unless the
inode table, the negative cache or the local directory has the answer. -/
def lookupProbes (table : InodeTable) (negativeCache : NegativeCache)
    (parent : Ino) (name : Name) : Option LookupCall :=
  match table.get parent with
  | none => none
  | some parentEntry =>
      if parentEntry.kind ≠ .directory then none
      else
        let fullPath := childPath parentEntry.fullPath name
        let call : LookupCall :=
          { parent
            name
            fullPath
            listed := parentEntry.childrenLoaded }
        match table.lookupChild parent name with
        | some entry =>
            if entry.kind = .file || parentEntry.childrenLoaded then none
            else if (negativeCache fullPath).isSome then none
            else some call
        | none =>
            if (negativeCache fullPath).isSome then none
            else if parentEntry.childrenLoaded &&
                !parentEntry.childrenFromRemote then none
            else some call

/-- The visible size of a file that a HEAD request has found and the size of
its ciphertext; an encrypted file whose header could not be probed has none. -/
def headSize (settings : ListingSettings) (head : HeadFileInfo)
    (probed : Option Nat) : Option (Nat × Option Nat) :=
  if settings.encrypting then
    head.xetHash.bind fun _ =>
      probed.map fun plaintext => (plaintext, some (head.size.getD 0))
  else some (head.size.getD 0, none)

def insertFoundFile (settings : ListingSettings) (table : InodeTable)
    (call : LookupCall) (head : HeadFileInfo) (sizes : Nat × Option Nat)
    (now : Time) : InodeTable :=
  let inserted := table.insert call.parent call.name call.fullPath .file sizes.1
    (head.lastModified.getD settings.defaultMtime) head.xetHash
    settings.fileMode settings.uid settings.gid now
  tagListed inserted.2 inserted.1 sizes.2 head.etag

/-- A file that was inserted in the meantime is kept.  A directory that the
remote has replaced goes, unless something in it is dirty or open. -/
def insertFileFromHead (settings : ListingSettings) (table : InodeTable)
    (call : LookupCall) (head : HeadFileInfo) (probed : Option Nat)
    (now : Time) : InodeTable :=
  match headSize settings head probed with
  | none => table
  | some sizes =>
      if !table.isDirectory call.parent then table
      else
        match table.lookupChild call.parent call.name with
        | none => insertFoundFile settings table call head sizes now
        | some existing =>
            if existing.kind = .file then table
            else if table.hasDirtyOrOpenDescendants existing.inode then table
            else insertFoundFile settings (table.remove existing.inode) call
              head sizes now

/-- The directory that a listing of the missing path has found. -/
def insertDir (settings : ListingSettings) (table : InodeTable)
    (call : LookupCall) (now : Time) : InodeTable :=
  if !table.isDirectory call.parent then table
  else if (table.lookupChild call.parent call.name).isSome then table
  else (table.insert call.parent call.name call.fullPath .directory 0
    settings.defaultMtime none settings.dirMode settings.uid settings.gid
    now).2

/-- The parent is still at the path that the lookup has read, and the name is
one that the kernel gives. -/
def LookupCall.Fits (table : InodeTable) (call : LookupCall) : Prop :=
  ValidName call.name ∧ ∀ entry ∈ table.get call.parent,
    call.fullPath = childPath entry.fullPath call.name

instance (table : InodeTable) (call : LookupCall) :
    Decidable (call.Fits table) :=
  inferInstanceAs (Decidable (_ ∧ _))

/-! ## The paths that come into the table -/

/-- Every live path was live before, or is one of `added`. -/
def PathsFrom (added : Path → Prop) (before after : InodeTable) : Prop :=
  ∀ path, before.pathToInode path = none → ¬ added path →
    after.pathToInode path = none

section

variable {added : Path → Prop}

theorem PathsFrom.refl (table : InodeTable) : PathsFrom added table table :=
  fun _ unmapped _ => unmapped

theorem PathsFrom.trans {first second third : InodeTable}
    (left : PathsFrom added first second)
    (right : PathsFrom added second third) : PathsFrom added first third :=
  fun path unmapped notAdded =>
    right path (left path unmapped notAdded) notAdded

theorem PathsFrom.mono {more : Path → Prop} {before after : InodeTable}
    (paths : PathsFrom added before after)
    (weaken : ∀ path, added path → more path) :
    PathsFrom more before after :=
  fun path unmapped notAdded =>
    paths path unmapped fun isAdded => notAdded (weaken path isAdded)

theorem PathsFrom.of_eq {before after : InodeTable}
    (same : after.pathToInode = before.pathToInode) :
    PathsFrom added before after := by
  intro path unmapped _
  rw [same]
  exact unmapped

theorem pathsFrom_of_shrunk {before after : InodeTable}
    (shrunk : Shrunk before after) : PathsFrom added before after := by
  intro path unmapped _
  cases mapped : after.pathToInode path with
  | none => rfl
  | some ino =>
      rw [shrunk.path mapped] at unmapped
      cases unmapped

theorem pathsFrom_of_pruned {related : InodeEntry → InodeEntry → Prop}
    {before after : InodeTable} {gone : Ino → Prop}
    (pruned : InodeTable.PrunedBy related before after gone) :
    PathsFrom added before after := by
  intro path unmapped _
  cases mapped : after.pathToInode path with
  | none => rfl
  | some ino =>
      rw [(pruned.path.mp mapped).1] at unmapped
      cases unmapped

theorem pathsFrom_modify (table : InodeTable) (ino : Ino)
    (change : InodeEntry → InodeEntry) :
    PathsFrom added table (table.modify ino change) :=
  .of_eq (InodeTable.pathToInode_modify table ino change)

theorem pathsFrom_insert (table : InodeTable) (parent : Ino) (name : Name)
    {fullPath : Path} (isAdded : added fullPath) (kind : InodeKind)
    (size : Nat) (mtime : Time) (xetHash : Option Hash) (mode uid gid : Nat)
    (now : Time) : PathsFrom added table (table.insert parent name fullPath
      kind size mtime xetHash mode uid gid now).2 := by
  intro path unmapped notAdded
  have different : path ≠ fullPath := by
    rintro rfl
    exact notAdded isAdded
  unfold InodeTable.insert
  split
  · rw [InodeTable.pathToInode_modify]
    exact unmapped
  · rw [InodeTable.pathToInode_modify]
    exact (Function.update_of_ne different _ _).trans unmapped

theorem pathsFrom_tagListed (table : InodeTable) (ino : Ino)
    (cipherSize : Option Nat) (oid : Option Hash) :
    PathsFrom added table (tagListed table ino cipherSize oid) := by
  unfold tagListed
  dsimp only
  split
  · apply PathsFrom.trans _ (pathsFrom_modify _ _ _)
    split
    · exact pathsFrom_modify _ _ _
    · exact .refl table
  · split
    · exact pathsFrom_modify _ _ _
    · exact .refl table

end

section

variable {settings : ListingSettings} {now : Time}

theorem pathsFrom_insertFoundFile (table : InodeTable) (call : LookupCall)
    (head : HeadFileInfo) (sizes : Nat × Option Nat) :
    PathsFrom (· = call.fullPath) table
      (insertFoundFile settings table call head sizes now) := by
  unfold insertFoundFile
  apply PathsFrom.trans _ (pathsFrom_tagListed _ _ _ _)
  apply pathsFrom_insert
  rfl

theorem pathsFrom_insertFileFromHead (table : InodeTable) (call : LookupCall)
    (head : HeadFileInfo) (probed : Option Nat) :
    PathsFrom (· = call.fullPath) table
      (insertFileFromHead settings table call head probed now) := by
  unfold insertFileFromHead
  split
  · exact .refl table
  split
  · exact .refl table
  split
  · exact pathsFrom_insertFoundFile table call head _
  split
  · exact .refl table
  split
  · exact .refl table
  · exact (pathsFrom_of_shrunk (shrunk_remove table _)).trans
      (pathsFrom_insertFoundFile _ call head _)

theorem pathsFrom_insertDir (table : InodeTable) (call : LookupCall) :
    PathsFrom (· = call.fullPath) table
      (insertDir settings table call now) := by
  unfold insertDir
  split
  · exact .refl table
  split
  · exact .refl table
  · apply pathsFrom_insert
    rfl

/-- A load brings the children that its listing has. -/
theorem pathsFrom_installListing (listing : Listing) (parent : Ino)
    (table : InodeTable) :
    PathsFrom (fun path => ∃ name ∈ listing.names settings,
        path = childPath listing.dir name) table
      (installListing settings listing parent now table).2 := by
  have one : ∀ (state : Installing), ∀ entry ∈ listing.entries,
      PathsFrom (fun path => ∃ name ∈ listing.names settings,
          path = childPath listing.dir name) state.table
        (installEntry settings listing parent now state entry).table := by
    intro state entry member
    have listed : ∀ name, listing.childName settings entry = some name →
        ∃ other ∈ listing.names settings,
          childPath listing.dir name = childPath listing.dir other :=
      fun name brings =>
        ⟨name, List.mem_filterMap.mpr ⟨entry, member, brings⟩, rfl⟩
    unfold Listing.childName at listed
    unfold installEntry
    split <;> rename_i shown
    · exact .refl _
    rename_i rel
    rw [shown, Option.bind_some] at listed
    split <;> rename_i nested
    · rw [if_pos nested] at listed
      unfold installNested
      dsimp only
      split
      · exact .refl _
      · exact pathsFrom_insert _ _ _ (listed _ rfl) _ _ _ _ _ _ _ _
    · rw [if_neg nested] at listed
      unfold installDirect
      split <;> rename_i sized
      · exact .refl _
      · have brought := listed rel (by rw [sized]; rfl)
        rw [← Listing.path_of_relPath shown] at brought
        exact (pathsFrom_insert _ _ _ brought _ _ _ _ _ _ _ _).trans
          (pathsFrom_tagListed _ _ _ _)
  have folded : ∀ (entries : List TreeEntry) (state : Installing),
      (∀ entry ∈ entries, entry ∈ listing.entries) →
      PathsFrom (fun path => ∃ name ∈ listing.names settings,
          path = childPath listing.dir name) state.table
        (entries.foldl (installEntry settings listing parent now)
          state).table := by
    intro entries
    induction entries with
    | nil => exact fun state _ => .refl state.table
    | cons entry entries ih =>
        intro state within
        exact (one state entry (within entry List.mem_cons_self)).trans
          (ih _ fun later member =>
            within later (List.mem_cons_of_mem _ member))
  rcases installListing_cases settings listing parent now table with
    same | ⟨_, _, change, _, _, installed⟩
  · rw [same]
    exact .refl table
  · rw [installed]
    apply PathsFrom.trans _ (pathsFrom_modify _ _ _)
    apply (folded listing.entries ⟨table, [], []⟩ fun _ => id).trans
    apply pathsFrom_of_shrunk
    exact List.foldlRecOn _ _ (Shrunk.refl _) fun before shrunk ino _ => by
      unfold removeStale
      split
      · exact shrunk
      · exact shrunk.trans (shrunk_remove before ino)

/-! ## Tables in order -/

theorem inOrder_tagListed {table : InodeTable} (order : table.InOrder)
    (ino : Ino) (cipherSize : Option Nat) (oid : Option Hash) :
    (tagListed table ino cipherSize oid).InOrder := by
  have sized : (if cipherSize.isSome then
      table.modify ino fun entry => { entry with cipherSize }
      else table).InOrder := by
    split
    · apply order.update
      intro entry
      exact .of_fields rfl
    · exact order
  unfold tagListed
  dsimp only
  split
  · apply sized.update
    intro entry
    exact .of_fields rfl
  · exact sized

theorem inOrder_insertFoundFile {table : InodeTable} (order : table.InOrder)
    {call : LookupCall} (fits : call.Fits table)
    (directory : table.isDirectory call.parent = true) (head : HeadFileInfo)
    (sizes : Nat × Option Nat) :
    (insertFoundFile settings table call head sizes now).InOrder := by
  obtain ⟨entry, found, isDirectory⟩ := InodeTable.isDirectory_iff.mp directory
  unfold insertFoundFile
  apply inOrder_tagListed
  exact order.insert found isDirectory fits.1 (fun _ => fits.2 entry found) _ _
    _ _ _ _ _ _

theorem inOrder_insertFileFromHead {table : InodeTable}
    (order : table.InOrder) {call : LookupCall} (fits : call.Fits table)
    (head : HeadFileInfo) (probed : Option Nat) :
    (insertFileFromHead settings table call head probed now).InOrder := by
  unfold insertFileFromHead
  split
  · exact order
  rename_i sizes _
  split <;> rename_i directory
  · exact order
  have isDirectory : table.isDirectory call.parent = true := by
    simpa using directory
  split <;> rename_i looked
  · exact inOrder_insertFoundFile order fits isDirectory head sizes
  rename_i existing
  split
  · exact order
  split
  · exact order
  -- The directory that goes is a child of the parent, which stays.
  obtain ⟨parentEntry, found, listed, isChild⟩ :=
    order.wf.lookupChild.mp looked
  obtain ⟨removed, pruned, stays⟩ := removed_child order found listed
  obtain ⟨kept, got, place, _⟩ := pruned.kept stays found
  have directoryAfter := isDirectory_remove_child order.wf.treelike
    ⟨_, _, found, listed⟩
  apply inOrder_insertFoundFile removed _ directoryAfter
  refine ⟨fits.1, ?_⟩
  intro other foundOther
  obtain rfl := Option.some.inj (got.symm.trans foundOther)
  rw [place.fullPath]
  exact fits.2 parentEntry found

theorem inOrder_insertDir {table : InodeTable} (order : table.InOrder)
    {call : LookupCall} (fits : call.Fits table) :
    (insertDir settings table call now).InOrder := by
  unfold insertDir
  split <;> rename_i directory
  · exact order
  split
  · exact order
  have isDirectory : table.isDirectory call.parent = true := by
    simpa using directory
  obtain ⟨entry, found, isDir⟩ := InodeTable.isDirectory_iff.mp isDirectory
  exact order.insert found isDir fits.1 (fun _ => fits.2 entry found) _ _ _ _ _
    _ _ _

end

end HfMount.Vfs
