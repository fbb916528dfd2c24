import HfMount.Inode.Table

/-!
# Applying remote changes

A poll compares a listing of the remote with the files of the table: it
updates the metadata of changed files, removes the files that are missing from
a directory that was listed, and drops the listing of every directory in which
something new appeared.  The live feed does the same for each changed path.
-/

namespace HfMount.Poll

open SlashPath Inode

inductive InvalKind where
  | pages
  | attrOnly
  deriving DecidableEq

inductive EntryType where
  | file
  | directory
  | other
  deriving DecidableEq

/-- One entry of a remote listing. -/
structure TreeEntry where
  path : Path
  entryType : EntryType
  size : Option Nat
  xetHash : Option Hash
  oid : Option Hash
  mtime : Option Time
  deriving DecidableEq

abbrev NegativeCache := Path → Option Time

/-- Queue the kernel invalidation of a file: its pages stay while a handle is
open. -/
def queueFileInvalidation (table : InodeTable) (ino : Ino) :
    Ino × InvalKind :=
  if table.hasOpenHandles ino then (ino, .attrOnly) else (ino, .pages)

/-- Drop a remotely deleted file.  The flag says whether the inode was there
and clean; with open handles it is unlinked by its name, and kept. -/
def removeRemoteFile (table : InodeTable) (ino : Ino) (now : Time) :
    Bool × InodeTable × List (Ino × InvalKind) :=
  match table.get ino with
  | none => (false, table, [])
  | some entry =>
      if entry.isDirty then (false, table, [])
      else
        let after :=
          if table.hasOpenHandles ino then
            (table.unlinkOne entry.parent entry.name now).2
          else table.remove ino
        (true, after, [(entry.parent, .pages), queueFileInvalidation table ino])

/-! ## The diff of a listing -/

structure Update where
  ino : Ino
  hash : Option Hash
  etag : Option Hash
  size : Nat
  mtime : Time
  cipherSize : Option Nat
  needsSizeProbe : Bool
  deriving DecidableEq

/-- The file entry of the listing at a path; of several the last one counts. -/
def remoteMap (remoteEntries : List TreeEntry) (path : Path) :
    Option TreeEntry :=
  (remoteEntries.filter (·.entryType = .file)).reverse.find? (·.path = path)

/-- Changes show in the hash, or in the object id when neither side has one. -/
def contentChanged (entry : InodeEntry) (remote : TreeEntry) : Bool :=
  if entry.xetHash.isSome || remote.xetHash.isSome then
    remote.xetHash != entry.xetHash
  else remote.oid != entry.etag

/-- The update for one file of the snapshot. -/
def diffUpdate (remoteEntries : List TreeEntry) (now : Time)
    (entry : InodeEntry) : Option Update :=
  if entry.isDirty then none
  else
    match remoteMap remoteEntries entry.fullPath with
    | none => none
    | some remote =>
        let remoteSize := remote.size.getD 0
        let localObjectSize := entry.cipherSize.getD entry.size
        if contentChanged entry remote || remoteSize != localObjectSize then
          some
            { ino := entry.inode
              hash := remote.xetHash
              etag := remote.oid
              size := if entry.cipherSize.isSome then entry.size
                else remoteSize
              mtime := remote.mtime.getD now
              cipherSize := entry.cipherSize.map fun _ => remoteSize
              needsSizeProbe := entry.cipherSize.isSome }
        else none

/-- A file counts as deleted when it is clean, the listing lacks its path, and
the directory of the path was listed. -/
def isDeleted (remoteEntries : List TreeEntry) (polledPrefixes : List Path)
    (entry : InodeEntry) : Bool :=
  !entry.isDirty && (remoteMap remoteEntries entry.fullPath).isNone &&
    decide (parentPath entry.fullPath ∈ polledPrefixes)

def updates (remoteEntries : List TreeEntry) (now : Time)
    (snapshot : List InodeEntry) : List Update :=
  snapshot.filterMap (diffUpdate remoteEntries now)

def deletions (remoteEntries : List TreeEntry) (polledPrefixes : List Path)
    (snapshot : List InodeEntry) : List Ino :=
  (snapshot.filter (isDeleted remoteEntries polledPrefixes)).map (·.inode)

/-- Apply one update; the probe flag is set only if the file was clean. -/
def applyUpdate (table : InodeTable) (update : Update) : InodeTable :=
  let updated := table.updateRemoteFile update.ino update.hash update.etag
    update.size update.mtime update.cipherSize
  if updated.1 then
    updated.2.modify update.ino fun entry =>
      { entry with needsSizeProbe := update.needsSizeProbe }
  else updated.2

/-- What a batch of remote changes works on. -/
structure PollState where
  table : InodeTable
  negativeCache : NegativeCache
  invalidated : List (Ino × InvalKind)

/-- The loaded directories in which a path of the listing is new, each with
its path. -/
def dirsToInvalidate (table : InodeTable) (paths : List Path) :
    List (Ino × Path) :=
  paths.foldl
    (fun dirs path =>
      match table.getByPath path with
      | some _ => dirs
      | none =>
          let dir := table.nearestDirAncestor path
          if table.isChildrenLoaded dir.1 && !dirs.any (·.1 == dir.1) then
            dirs ++ [dir]
          else dirs)
    []

/-- Forget that paths in these directories are missing. -/
def retainOutside (cache : NegativeCache) (dirs : List Path) : NegativeCache :=
  fun path =>
    if dirs.any fun dir =>
        dir.isEmpty || (dir ++ ['/']).isPrefixOf path || path == dir then none
    else cache path

/-- Compare a listing with the table and apply the difference. -/
def applyPollDiff (remoteEntries : List TreeEntry) (polledPrefixes : List Path)
    (now : Time) (state : PollState) : PollState :=
  let snapshot := state.table.fileSnapshot
  let updated := (updates remoteEntries now snapshot).foldl
    (fun (current : PollState) update =>
      let table := applyUpdate current.table update
      { current with
        table
        invalidated :=
          current.invalidated ++ [queueFileInvalidation table update.ino] })
    state
  let pruned := (deletions remoteEntries polledPrefixes snapshot).foldl
    (fun (current : PollState) ino =>
      let removed := removeRemoteFile current.table ino now
      { current with
        table := removed.2.1
        invalidated := current.invalidated ++ removed.2.2 })
    updated
  let dirs := dirsToInvalidate pruned.table (remoteEntries.map (·.path))
  { table := dirs.foldl (fun table dir => table.invalidateChildren dir.1)
      pruned.table
    negativeCache := retainOutside pruned.negativeCache (dirs.map (·.2))
    invalidated := pruned.invalidated ++ dirs.map fun dir => (dir.1, .pages) }

/-! ## The changes of the live feed -/

inductive FollowOp where
  | add
  | update
  | delete
  deriving DecidableEq

structure FollowChange where
  path : Path
  op : FollowOp
  size : Option Nat
  xetHash : Option Hash
  uploadedAt : Option Time
  mtime : Option Time
  deriving DecidableEq

/-- The files and the directory listings that one change touches. -/
structure FollowState where
  table : InodeTable
  invalidated : List (Ino × InvalKind)
  dirs : List Ino

def applyFollowChange (now : Time) (state : FollowState)
    (change : FollowChange) : FollowState :=
  match (state.table.getByPath change.path).filter (·.kind = .file) with
  | none =>
      let dir := (state.table.nearestDirAncestor change.path).1
      if state.table.isChildrenLoaded dir then
        { state with dirs := state.dirs ++ [dir] }
      else state
  | some entry =>
      if entry.isDirty then state
      else
        match change.op with
        | .delete =>
            let removed := removeRemoteFile state.table entry.inode now
            { state with
              table := removed.2.1
              invalidated := state.invalidated ++ removed.2.2 }
        | _ =>
            let merged := state.table.mergeRemoteFile entry.inode change.xetHash
              change.size (change.mtime.orElse fun _ => change.uploadedAt)
            { state with
              table := merged.2
              invalidated :=
                if merged.1 then
                  state.invalidated ++
                    [queueFileInvalidation merged.2 entry.inode]
                else state.invalidated }

/-- The path and every directory above it, up to the first component. -/
def withAncestors : Nat → Path → List Path
  | 0, path => [path]
  | bound + 1, path =>
      if path.contains '/' then
        path :: withAncestors bound (parentPath path)
      else [path]

/-- A path that was added or changed is not missing, nor is a directory above
it. -/
def forgetMissing (cache : NegativeCache) (changes : List FollowChange) :
    NegativeCache :=
  fun path =>
    if changes.any fun change =>
        change.op != .delete &&
          (withAncestors change.path.length change.path).contains path then none
    else cache path

def applyFollowChanges (changes : List FollowChange) (now : Time)
    (state : PollState) : PollState :=
  let applied := changes.foldl (applyFollowChange now)
    { table := state.table
      invalidated := state.invalidated
      dirs := [] }
  { table := applied.dirs.foldl InodeTable.invalidateChildren applied.table
    negativeCache := forgetMissing state.negativeCache changes
    invalidated := applied.invalidated ++
      applied.dirs.dedup.map fun dir => (dir, .pages) }

end HfMount.Poll
