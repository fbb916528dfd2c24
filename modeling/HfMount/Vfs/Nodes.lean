import HfMount.Inode.Relocate

/-!
# The live nodes of an inode table

What decides about the remote is, for each live inode, its kind and path, the
committed hash, the dirty generation, the deletes that it owes and whether it
is a loaded directory.  The operations on the table are described by what they
do to these nodes.
-/

namespace HfMount.Inode

open SlashPath

structure Node where
  kind : InodeKind
  path : Path
  hash : Option Hash
  generation : Nat
  pending : List Path
  loaded : Bool
  deriving DecidableEq

def InodeEntry.toNode (entry : InodeEntry) : Node :=
  { kind := entry.kind
    path := entry.fullPath
    hash := entry.xetHash
    generation := entry.dirtyGeneration
    pending := entry.pendingDeletes
    loaded := entry.childrenLoaded }

namespace Node

def isFile (node : Node) : Bool := node.kind = .file

def isDirty (node : Node) : Bool := 0 < node.generation

end Node

namespace InodeTable

def node (table : InodeTable) (ino : Ino) : Option Node :=
  ((table.get ino).filter (·.isLive)).map (·.toNode)

theorem node_eq_some {table : InodeTable} {ino : Ino} {node : Node} :
    table.node ino = some node ↔
      ∃ entry, table.get ino = some entry ∧ entry.isLive = true ∧
        entry.toNode = node := by
  simp only [InodeTable.node, Option.map_eq_some_iff, Option.filter_eq_some_iff,
    and_assoc]

theorem node_of_get {table : InodeTable} {ino : Ino} {entry : InodeEntry}
    (found : table.get ino = some entry) (live : entry.isLive = true) :
    table.node ino = some entry.toNode :=
  node_eq_some.mpr ⟨entry, found, live, rfl⟩

theorem node_of_dead {table : InodeTable} {ino : Ino}
    (dead : ∀ entry, table.get ino = some entry → entry.isLive = false) :
    table.node ino = none := by
  cases shown : table.node ino with
  | none => rfl
  | some node =>
      obtain ⟨entry, found, live, _⟩ := node_eq_some.mp shown
      rw [dead entry found] at live
      cases live

/-! ## Changes that keep the nodes -/

theorem node_congr {left right : InodeEntry} (place : left.SamePlace right)
    (content : left.SameContent right) :
    right.isLive = left.isLive ∧ right.toNode = left.toNode := by
  refine ⟨place.isLive, ?_⟩
  simp only [InodeEntry.toNode, InodeEntry.childrenLoaded, place.kind,
    place.fullPath, content.xetHash, content.dirtyGeneration,
    content.pendingDeletes, content.childrenLoadedAt]

/-- A change of fields that no node shows. -/
theorem node_modify_same (table : InodeTable) (ino : Ino)
    {change : InodeEntry → InodeEntry}
    (same : ∀ entry : InodeEntry, entry.SamePlace (change entry) ∧
      entry.SameContent (change entry)) (other : Ino) :
    (table.modify ino change).node other = table.node other := by
  simp only [node]
  rw [get_modify]
  split <;> rename_i here
  · subst here
    cases table.get other with
    | none => rfl
    | some entry =>
        obtain ⟨live, shown⟩ := node_congr (same entry).1 (same entry).2
        simp only [Option.map_some, Option.filter_some, live]
        split
        · simp only [Option.map_some, shown]
        · rfl
  · rfl

theorem node_modify (table : InodeTable) (ino other : Ino)
    (change : InodeEntry → InodeEntry) :
    (table.modify ino change).node other =
      if other = ino then
        (((table.get ino).map change).filter (·.isLive)).map (·.toNode)
      else table.node other := by
  simp only [node]
  rw [get_modify]
  split <;> rfl

theorem node_touchParent (table : InodeTable) (parent other : Ino)
    (now : Time) :
    (table.touchParent parent now).node other = table.node other := by
  apply node_modify_same
  intro entry
  exact ⟨⟨rfl, rfl, rfl, rfl, rfl, fun _ => rfl⟩, ⟨rfl, rfl, rfl, rfl, rfl⟩⟩

/-- A change of a live inode that keeps it live. -/
theorem node_modify_of_live {table : InodeTable} {ino : Ino}
    {entry : InodeEntry} (found : table.get ino = some entry)
    {change : InodeEntry → InodeEntry}
    (live : (change entry).isLive = true) (other : Ino) :
    (table.modify ino change).node other =
      if other = ino then some (change entry).toNode else table.node other := by
  rw [node_modify, found]
  simp only [Option.map_some, Option.filter_some, live, if_true]

/-! ## Changes of the tree -/

theorem Pruned.node {before after : InodeTable} {gone : Ino → Prop}
    (pruned : before.Pruned after gone) (ino : Ino) :
    (gone ino → after.node ino = none) ∧
      (¬ gone ino → after.node ino = before.node ino) := by
  constructor
  · intro isGone
    apply node_of_dead
    intro other got
    obtain ⟨_, _, whenGone⟩ := pruned.source got
    exact (whenGone isGone).1
  · intro notGone
    cases found : before.get ino with
    | none =>
        have missing : after.get ino = none := by
          cases got : after.get ino with
          | none => rfl
          | some other =>
              obtain ⟨entry, foundEntry, _⟩ := pruned.source got
              rw [found] at foundEntry
              cases foundEntry
        simp only [InodeTable.node, found, missing]
    | some entry =>
        obtain ⟨other, got, place, content, _⟩ := pruned.kept notGone found
        obtain ⟨live, shown⟩ := node_congr place content
        simp only [InodeTable.node, found, got, Option.filter_some, live]
        split
        · simp only [Option.map_some, shown]
        · rfl

/-- Taking out the same inodes in two steps. -/
theorem Pruned.trans {first second third : InodeTable} {gone : Ino → Prop}
    (left : first.Pruned second gone) (right : second.Pruned third gone) :
    first.Pruned third gone := by
  refine ⟨left.root, left.closed, ?_, ?_, ?_,
    right.nextInode.trans left.nextInode⟩
  · intro ino entry notGone found
    obtain ⟨middle, foundMiddle, place, content, _, children⟩ :=
      left.kept notGone found
    obtain ⟨last, foundLast, samePlace, sameContent, indexed, lastChildren⟩ :=
      right.kept notGone foundMiddle
    refine ⟨last, foundLast, place.trans samePlace, ?_, indexed, ?_⟩
    · exact ⟨sameContent.size.trans content.size,
        sameContent.xetHash.trans content.xetHash,
        sameContent.dirtyGeneration.trans content.dirtyGeneration,
        sameContent.pendingDeletes.trans content.pendingDeletes,
        sameContent.childrenLoadedAt.trans content.childrenLoadedAt⟩
    · intro child
      rw [lastChildren, children, and_assoc, and_self]
  · intro ino other got
    obtain ⟨middle, foundMiddle, whenGone⟩ := right.source got
    obtain ⟨entry, found, _⟩ := left.source foundMiddle
    exact ⟨entry, found, whenGone⟩
  · intro path ino
    rw [right.path, left.path, and_assoc, and_self]

end InodeTable

end HfMount.Inode
