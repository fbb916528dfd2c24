import HfMount.Inode.BatchEviction
import HfMount.Vfs.ChildOrder
import HfMount.Vfs.Readdir

/-!
# `READDIR` over FUSE

The cookie of an entry is its position in the listing, counted from one, and a
call goes on at the position that it is handed.  Between the calls the table
changes.  A child that is added comes last, but one that goes moves all later
entries up.
-/

namespace HfMount.Vfs

open SlashPath Inode Transition

/-- `FuseAdapter::readdir` with a reply buffer that has room for `room`
entries: the entries with their cookies. -/
def fuseReaddir (table : InodeTable) (ino : Ino) (offset room : Nat) :
    Option (List (DirEntry × Nat)) :=
  (table.readdir ino).map fun entries =>
    ((entries.zipIdx.drop offset).take room).map fun item =>
      (item.1, item.2 + 1)

/-- A kernel that lists a directory, call after call. -/
structure Enumeration where
  table : InodeTable
  /-- The cookie of the last entry that was returned. -/
  offset : Nat
  returned : List DirEntry
  /-- The names that were listed at the start and at every call. -/
  throughout : List Name
  /-- A call has returned nothing. -/
  ended : Bool

inductive DirEvent where
  /-- A create, an unlink, a rename, an eviction, or an entry that a reload
  brings back. -/
  | change (op : TableOp)
  | call (room : Nat)

namespace Enumeration

def start (table : InodeTable) (dir : Ino) : Enumeration :=
  { table
    offset := 0
    returned := []
    throughout := ((table.readdir dir).getD []).map (·.name)
    ended := false }

/-- A call waits for the children to be loaded, and its buffer has room for at
least one entry. -/
def step (dir : Ino) (state : Enumeration) : DirEvent → Option Enumeration
  | .change op =>
      (state.table.applyOp op).map fun after => { state with table := after }
  | .call room =>
      if state.ended || room = 0 || !state.table.isChildrenLoaded dir then none
      else do
        let entries ← state.table.readdir dir
        let page ← fuseReaddir state.table dir state.offset room
        some
          { state with
            offset := (page.getLast?.map (·.2)).getD state.offset
            returned := state.returned ++ page.map (·.1)
            throughout := state.throughout.filter fun name =>
              (entries.map (·.name)).contains name
            ended := page.isEmpty }

/-- Everything that is to be returned has been returned. -/
def Settled (state : Enumeration) : Prop :=
  ∀ name ∈ state.throughout, name ∈ state.returned.map (·.name)

/-- No child that the cookie has passed is taken out of the directory, and
none is put at its end.  The first two entries are `.` and `..`. -/
def LeavesPassed (dir : Ino) (offset : Nat) (table : InodeTable)
    (op : TableOp) : Prop :=
  ∀ after ∈ table.applyOp op, ∀ entry ∈ table.get dir,
    ∀ other ∈ after.get dir, ∀ child ∈ entry.children.take (offset - 2),
      child ∈ other.children ∧ ¬ table.Adds op child

/-- A change fits the table and leaves what the cookie has passed, unless there
is nothing left to return. -/
def Careful (dir : Ino) (state : Enumeration) : DirEvent → Prop
  | .change op => state.Settled ∨
      state.table.Fits op ∧ LeavesPassed dir state.offset state.table op
  | .call _ => True

/-- The entries that the cookie has passed stay where they are. -/
structure KeepsPassed (dir : Ino) (offset : Nat) (before after : InodeTable) :
    Prop where
  entries : ∀ later, after.readdir dir = some later → ∃ entries,
    before.readdir dir = some entries ∧
      ((entries.take offset).map (·.name)) <+: later.map (·.name)

/-- What the cookie has passed has been returned. -/
structure Passed (dir : Ino) (state : Enumeration) : Prop where
  inside : ∀ entries, state.table.readdir dir = some entries →
    state.offset ≤ entries.length
  returned : ∀ entries, state.table.readdir dir = some entries →
    ∀ name ∈ (entries.take state.offset).map (·.name),
      name ∈ state.returned.map (·.name)

/-- The listing may still grow under the cookie. -/
structure Reading (dir : Ino) (state : Enumeration) : Prop where
  order : state.table.InOrder
  old : dir < state.table.nextInode
  passed : Passed dir state

/-- The invariant of careful runs. -/
structure Complete (dir : Ino) (state : Enumeration) : Prop where
  reading : state.Settled ∨ Reading dir state
  settled : state.ended = true → state.Settled

variable {dir : Ino} {state next : Enumeration}

/-! ## One call -/

theorem fuseReaddir_eq {table : InodeTable} {entries : List DirEntry}
    (listed : table.readdir dir = some entries) (offset room : Nat) :
    ∃ page, fuseReaddir table dir offset room = some page ∧
      page.map (·.1) = (entries.drop offset).take room ∧
      (offset ≤ entries.length → (page.getLast?.map (·.2)).getD offset =
        offset + ((entries.drop offset).take room).length) := by
  unfold fuseReaddir
  rw [listed]
  refine ⟨_, rfl, ?_, ?_⟩
  · have firsts : (fun item : DirEntry × Nat => item.1) ∘
        (fun item : DirEntry × Nat => (item.1, item.2 + 1)) = Prod.fst := rfl
    rw [List.map_map, firsts, List.map_take, List.map_drop,
      List.zipIdx_map_fst]
  · intro inside
    have length : ((entries.zipIdx.drop offset).take room).length =
        ((entries.drop offset).take room).length := by
      simp
    rw [List.getLast?_map, List.getLast?_eq_getElem?, ← length]
    generalize count : ((entries.zipIdx.drop offset).take room).length = many
    cases many with
    | zero =>
        rw [List.length_eq_zero_iff] at count
        simp [count]
    | succ many =>
        rw [List.length_take, List.length_drop, List.length_zipIdx] at count
        rw [List.getElem?_take, if_pos (by omega), List.getElem?_drop,
          List.getElem?_zipIdx, List.getElem?_eq_getElem (by omega)]
        simp
        omega

/-- What a call does to the enumeration. -/
structure Called (dir : Ino) (state next : Enumeration) (room : Nat)
    (entries : List DirEntry) : Prop where
  listed : state.table.readdir dir = some entries
  positive : 0 < room
  table : next.table = state.table
  offset : state.offset ≤ entries.length →
    next.offset = state.offset + ((entries.drop state.offset).take room).length
  returned : next.returned =
    state.returned ++ (entries.drop state.offset).take room
  throughout : next.throughout = state.throughout.filter fun name =>
    (entries.map (·.name)).contains name
  ended : next.ended = ((entries.drop state.offset).take room).isEmpty

theorem called_of_step {room : Nat}
    (stepped : step dir state (.call room) = some next) :
    ∃ entries, Called dir state next room entries := by
  simp only [step, Option.ite_none_left_eq_some, Bool.or_eq_true,
    decide_eq_true_eq, not_or] at stepped
  obtain ⟨⟨⟨_, positive⟩, _⟩, stepped⟩ := stepped
  obtain ⟨entries, listed, stepped⟩ := Option.bind_eq_some_iff.mp stepped
  obtain ⟨page, read, items, last⟩ :=
    fuseReaddir_eq listed state.offset room
  rw [read, Option.bind_eq_bind, Option.bind_some] at stepped
  obtain rfl := Option.some.inj stepped
  refine ⟨entries, listed, Nat.pos_of_ne_zero positive, rfl, last, ?_, rfl, ?_⟩
  · exact congrArg (state.returned ++ ·) items
  · rw [← items]
    cases page <;> rfl

theorem Settled.call {room : Nat} {entries : List DirEntry}
    (settled : state.Settled) (called : Called dir state next room entries) :
    next.Settled := by
  intro name listed
  rw [called.throughout] at listed
  rw [called.returned, List.map_append]
  exact List.mem_append_left _ (settled name (List.mem_filter.mp listed).1)

/-- A call goes on where the cookie points. -/
theorem Called.take_offset {room : Nat} {entries : List DirEntry}
    (called : Called dir state next room entries)
    (inside : state.offset ≤ entries.length) :
    next.offset ≤ entries.length ∧
      entries.take next.offset = entries.take state.offset ++
        (entries.drop state.offset).take room := by
  have offset := called.offset inside
  rw [List.length_take, List.length_drop] at offset
  refine ⟨by omega, ?_⟩
  rw [offset, List.take_add]
  congr 1
  by_cases enough : room ≤ entries.length - state.offset
  · rw [Nat.min_eq_left enough]
  · rw [Nat.min_eq_right (by omega), List.take_of_length_le,
      List.take_of_length_le]
    · rw [List.length_drop]
      omega
    · rw [List.length_drop]

theorem Called.all_passed {room : Nat} {entries : List DirEntry}
    (called : Called dir state next room entries) (ended : next.ended = true) :
    entries.length ≤ state.offset := by
  rw [called.ended, List.isEmpty_iff, List.take_eq_nil_iff,
    List.drop_eq_nil_iff] at ended
  exact ended.resolve_left (Nat.ne_of_gt called.positive)

theorem Passed.call {room : Nat} {entries : List DirEntry}
    (passed : Passed dir state) (called : Called dir state next room entries) :
    Passed dir next := by
  have inside := passed.inside entries called.listed
  obtain ⟨insideNext, split⟩ := called.take_offset inside
  constructor
  · intro again listed
    rw [called.table, called.listed] at listed
    obtain rfl := Option.some.inj listed
    exact insideNext
  · intro again listed name member
    rw [called.table, called.listed] at listed
    obtain rfl := Option.some.inj listed
    rw [split, List.map_append] at member
    rw [called.returned, List.map_append]
    rcases List.mem_append.mp member with before | now
    · exact List.mem_append_left _
        (passed.returned entries called.listed name before)
    · exact List.mem_append_right _ now

/-- A call that returns nothing has passed the whole listing. -/
theorem Passed.settled {room : Nat} {entries : List DirEntry}
    (passed : Passed dir state) (called : Called dir state next room entries)
    (ended : next.ended = true) : next.Settled := by
  have all := called.all_passed ended
  intro name member
  rw [called.throughout, List.mem_filter, List.contains_iff_mem] at member
  rw [called.returned, List.map_append]
  apply List.mem_append_left
  apply passed.returned entries called.listed
  rw [List.take_of_length_le all]
  exact member.2

theorem Passed.change {after : InodeTable}
    (passed : Passed dir state)
    (keeps : KeepsPassed dir state.offset state.table after) :
    Passed dir { state with table := after } := by
  -- The passed entries are a prefix of the new listing of the same length.
  have same : ∀ later, after.readdir dir = some later →
      ∃ entries, state.table.readdir dir = some entries ∧
        state.offset ≤ later.length ∧
        (later.take state.offset).map (·.name) =
          (entries.take state.offset).map (·.name) := by
    intro later listed
    obtain ⟨entries, listedBefore, kept⟩ := keeps.entries later listed
    have inside := passed.inside entries listedBefore
    have shorter := kept.length_le
    have equal := List.prefix_iff_eq_take.mp kept
    rw [List.length_map, List.length_map, List.length_take,
      Nat.min_eq_left inside] at shorter
    rw [List.length_map, List.length_take, Nat.min_eq_left inside] at equal
    exact ⟨entries, listedBefore, shorter, by rw [List.map_take, equal]⟩
  constructor
  · intro later listed
    exact (same later listed).choose_spec.2.1
  · intro later listed name member
    obtain ⟨entries, listedBefore, _, equal⟩ := same later listed
    dsimp only at member
    rw [equal] at member
    exact passed.returned entries listedBefore name member

/-! ## One change -/

/-- The names that a directory lists. -/
theorem names_readdir {table : InodeTable} (wf : table.WellFormed)
    {entry : InodeEntry} (found : table.get dir = some entry) :
    ∃ entries, table.readdir dir = some entries ∧
      entries.map (·.name) =
        ['.'] :: ['.', '.'] :: entry.children.map (·.name) := by
  refine ⟨_, congrArg (Option.map _) found, ?_⟩
  rw [List.map_cons, List.map_cons, InodeTable.names_childEntries wf found]

theorem get_of_readdir {table : InodeTable} {entries : List DirEntry}
    (listed : table.readdir dir = some entries) :
    ∃ entry, table.get dir = some entry := by
  obtain ⟨entry, found, _⟩ := Option.map_eq_some_iff.mp listed
  exact ⟨entry, found⟩

/-- The names before the cookie, with `.` and `..`. -/
theorem take_names_prefix {names later : List Name} {offset : Nat}
    (kept : names.take (offset - 2) <+: later) :
    (['.'] :: ['.', '.'] :: names).take offset <+:
      ['.'] :: ['.', '.'] :: later := by
  match offset with
  | 0 => exact List.nil_prefix
  | 1 => exact ⟨_, rfl⟩
  | offset + 2 =>
      rw [List.take_succ_cons, List.take_succ_cons, List.cons_prefix_cons,
        List.cons_prefix_cons]
      exact ⟨rfl, rfl, kept⟩

theorem keepsPassed_of_leaves {table after : InodeTable} {op : TableOp}
    {offset : Nat} (order : table.InOrder) (old : dir < table.nextInode)
    (fits : table.Fits op) (applied : table.applyOp op = some after)
    (leaves : LeavesPassed dir offset table op) :
    KeepsPassed dir offset table after := by
  have wf := order.wf
  have wfAfter := (order.applyOp fits applied).wf
  constructor
  intro later listed
  obtain ⟨other, foundAfter⟩ := get_of_readdir listed
  rcases (InodeTable.trims_applyOp applied).entry foundAfter with
    new | ⟨entry, found, trimmed⟩
  · exact absurd old (Nat.not_lt.mpr new)
  have stays := leaves after applied entry found other foundAfter
  have first : entry.children.take (offset - 2) <+: other.children :=
    (trimmed.prefix_iff (wf.indexed found).children_nodup
      fun child passed => (stays child passed).2).mpr
        fun child passed => (stays child passed).1
  obtain ⟨entries, listedBefore, names⟩ := names_readdir wf found
  obtain ⟨_, listedAgain, namesAfter⟩ := names_readdir wfAfter foundAfter
  obtain rfl := Option.some.inj (listed.symm.trans listedAgain)
  refine ⟨entries, listedBefore, ?_⟩
  rw [List.map_take, names, namesAfter]
  apply take_names_prefix
  rw [← List.map_take]
  exact first.map _

theorem Reading.change {op : TableOp} {after : InodeTable}
    (reading : Reading dir state) (fits : state.table.Fits op)
    (leaves : LeavesPassed dir state.offset state.table op)
    (applied : state.table.applyOp op = some after) :
    Reading dir { state with table := after } := by
  have keeps :=
    keepsPassed_of_leaves reading.order reading.old fits applied leaves
  exact ⟨reading.order.applyOp fits applied,
    Nat.lt_of_lt_of_le reading.old (InodeTable.trims_applyOp applied).next,
    reading.passed.change keeps⟩

/-! ## A whole enumeration -/

theorem complete_start {table : InodeTable} (order : table.InOrder)
    (dir : Ino) : Complete dir (start table dir) := by
  refine ⟨?_, ?_⟩
  · cases found : table.get dir with
    | none =>
        apply Or.inl
        intro name member
        simp [start, InodeTable.readdir, found] at member
    | some entry =>
        refine Or.inr ⟨order, (order.wf.key found).2, ?_, ?_⟩
        · intro entries _
          exact Nat.zero_le _
        · intro entries _ name member
          simp [start] at member
  · intro ended
    cases ended

theorem Complete.step {event : DirEvent} (complete : Complete dir state)
    (careful : Careful dir state event)
    (stepped : step dir state event = some next) : Complete dir next := by
  cases event with
  | change op =>
      obtain ⟨after, applied, rfl⟩ := Option.map_eq_some_iff.mp stepped
      refine ⟨?_, complete.settled⟩
      rcases careful with settled | ⟨fits, leaves⟩
      · exact Or.inl settled
      · rcases complete.reading with settled | reading
        · exact Or.inl settled
        · exact Or.inr (reading.change fits leaves applied)
  | call room =>
      obtain ⟨entries, called⟩ := called_of_step stepped
      rcases complete.reading with settled | reading
      · exact ⟨Or.inl (settled.call called), fun _ => settled.call called⟩
      · refine ⟨Or.inr ⟨?_, ?_, reading.passed.call called⟩,
          reading.passed.settled called⟩
        · rw [called.table]
          exact reading.order
        · rw [called.table]
          exact reading.old

/-- The invariant of runs without changes. -/
structure Plain (dir : Ino) (table : InodeTable) (state : Enumeration) :
    Prop where
  same : state.table = table
  returned : ∀ entries, table.readdir dir = some entries →
    state.offset ≤ entries.length ∧
      state.returned = entries.take state.offset ∧
      (state.ended = true → state.returned = entries)

theorem plain_start (table : InodeTable) (dir : Ino) :
    Plain dir table (start table dir) := by
  refine ⟨rfl, ?_⟩
  intro entries _
  refine ⟨Nat.zero_le _, rfl, ?_⟩
  intro ended
  cases ended

theorem Plain.call {table : InodeTable} {room : Nat}
    (plain : Plain dir table state)
    (stepped : step dir state (.call room) = some next) :
    Plain dir table next := by
  obtain ⟨entries, called⟩ := called_of_step stepped
  refine ⟨called.table.trans plain.same, ?_⟩
  intro again listed
  have listedNow := called.listed
  rw [plain.same, listed] at listedNow
  obtain rfl := Option.some.inj listedNow
  obtain ⟨inside, returned, _⟩ := plain.returned again listed
  obtain ⟨insideNext, split⟩ := called.take_offset inside
  have all : next.returned = again.take next.offset := by
    rw [called.returned, returned, split]
  refine ⟨insideNext, all, ?_⟩
  intro ended
  rw [all, split, List.take_of_length_le (called.all_passed ended)]
  have none := called.ended
  rw [ended] at none
  rw [List.isEmpty_iff.mp none.symm, List.append_nil]

/-- With careful changes between the calls, an enumeration returns every entry
that is listed throughout; without changes it returns the listing, each entry
once and in order. -/
theorem complete_of_careful {table : InodeTable} (order : table.InOrder)
    {events : List DirEvent} {final : Enumeration}
    (careful : AllSteps (step dir) (Careful dir) (start table dir) events)
    (run : exec (step dir) (start table dir) events = some final) :
    (final.ended = true → final.Settled) ∧
      ((∀ event ∈ events, ∃ room, event = .call room) →
        ∀ entries, table.readdir dir = some entries →
          final.returned = entries.take final.offset ∧
            (final.ended = true → final.returned = entries)) := by
  constructor
  · have complete : Complete dir final :=
      exec_invariant
        (fun _ _ _ complete careful stepped => complete.step careful stepped)
        (complete_start order dir) careful run
    exact complete.settled
  · intro calls entries listed
    have plain : Plain dir table final := by
      refine exec_invariant ?_ (plain_start table dir)
        (allSteps_of_forall calls) run
      rintro state event next plain ⟨room, rfl⟩ stepped
      exact plain.call stepped
    exact (plain.returned entries listed).2

instance (state : Enumeration) : Decidable state.Settled :=
  inferInstanceAs (Decidable (∀ _ ∈ _, _))

instance (dir : Ino) (offset : Nat) (table : InodeTable) (op : TableOp) :
    Decidable (LeavesPassed dir offset table op) :=
  inferInstanceAs (Decidable (∀ _ ∈ _, _))

instance (dir : Ino) (state : Enumeration) (event : DirEvent) :
    Decidable (Careful dir state event) := by
  cases event <;> unfold Careful <;> infer_instance

/-- The root with the files `a` and `b`, loaded. -/
def loadedTwoFiles : InodeTable :=
  InodeTable.twoCandidates.modify rootInode fun entry =>
    { entry with childrenLoadedAt := some 0 }

theorem inOrder_loadedTwoFiles : loadedTwoFiles.InOrder := by
  have root : InodeTable.new.get rootInode = some InodeTable.rootEntry := rfl
  have first := InodeTable.inOrder_new.insert root rfl
    (show ValidName ['a'] by decide) (fun _ => rfl) .file 0 0 none 420 0 0 0
  have grown : (InodeTable.new.insert rootInode ['a'] (childPath [] ['a'])
      .file 0 0 none 420 0 0 0).2.get rootInode = some (InodeTable.grownParent
        InodeTable.rootEntry 2 ['a'] .file) := rfl
  have second := first.insert grown rfl (show ValidName ['b'] by decide)
    (fun _ => rfl) .file 0 0 none 420 0 0 0
  apply second.update
  intro entry
  exact .of_fields rfl

/-- A file is created and one that was not returned yet is unlinked. -/
def createdAndUnlinked : List DirEvent :=
  [.call 3,
    .change (.insert rootInode ['c'] ['c'] .file 0 1 none 420 0 0 1),
    .change (.unlinkOne rootInode ['b'] 1), .call 8, .call 8]

theorem complete_of_careful_createdAndUnlinked :
    let final := (exec (step rootInode) (start loadedTwoFiles rootInode)
      createdAndUnlinked).get (by decide)
    (final.ended = true → final.Settled) ∧
      ((∀ event ∈ createdAndUnlinked, ∃ room, event = .call room) →
        ∀ entries, loadedTwoFiles.readdir rootInode = some entries →
          final.returned = entries.take final.offset ∧
            (final.ended = true → final.returned = entries)) :=
  complete_of_careful inOrder_loadedTwoFiles (by decide)
    (Option.some_get _).symm

/-- The file `a` is unlinked after it was returned, and `b` is skipped. -/
theorem enumeration_incomplete : ¬ ∀ (events : List DirEvent)
    (final : Enumeration), exec (step rootInode)
      (start loadedTwoFiles rootInode) events = some final →
    final.ended = true → final.Settled := by
  intro claim
  have settled := claim
    [.call 3, .change (.unlinkOne rootInode ['a'] 1), .call 8] _
    (Option.some_get (by decide)).symm (by decide)
  revert settled
  decide

end Enumeration

end HfMount.Vfs
