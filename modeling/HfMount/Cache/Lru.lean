import HfMount.Cache.Store
import HfMount.Lib.Transition

/-!
# Accounting and the order of eviction

The sum of the sizes is exact as long as the scan at the start found no two
files of one name, or only empty ones before the last.  Then a publication
evicts a shortest sufficient part of the items in the order of their last
access, and keeps the item that it published.
-/

namespace HfMount.Cache

open Transition

@[simp] theorem weight_nil : weight [] = 0 := rfl

@[simp] theorem weight_cons (entry : Entry) (entries : List Entry) :
    weight (entry :: entries) = entry.2.size + weight entries := by
  simp [weight]

@[simp] theorem weight_append (left right : List Entry) :
    weight (left ++ right) = weight left + weight right := by
  simp [weight]

theorem weight_perm {left right : List Entry} (perm : left.Perm right) :
    weight left = weight right := (perm.map _).sum_eq

/-! ## Changing one item -/

theorem perm_erase_of_lookup {items : Items} {hash : Hash} {item : CacheItem}
    (found : items.lookup hash = some item) :
    items.entries.Perm (⟨hash, item⟩ :: (items.erase hash).entries) := by
  have listed : hash ∈ items.entries.keys :=
    AList.lookup_isSome.mp (found ▸ rfl)
  obtain ⟨other, before, after, notBefore, split, erased⟩ :=
    List.exists_of_kerase listed
  have same : other = item := by
    have here : (⟨hash, other⟩ : Entry) ∈ items.entries := by
      rw [split]
      simp
    have looked := (List.mem_dlookup_iff items.nodupKeys).mpr here
    exact Option.some.inj (looked.symm.trans found)
  have rest : (items.erase hash).entries = before ++ after := erased
  rw [rest, split, same]
  exact List.perm_middle

theorem weight_erase_of_lookup {items : Items} {hash : Hash} {item : CacheItem}
    (found : items.lookup hash = some item) :
    weight items.entries = item.size + weight (items.erase hash).entries := by
  rw [weight_perm (perm_erase_of_lookup found), weight_cons]

theorem erase_of_lookup_eq_none {items : Items} {hash : Hash}
    (missing : items.lookup hash = none) :
    (items.erase hash).entries = items.entries :=
  List.kerase_of_notMem_keys (AList.lookup_eq_none.mp missing)

theorem weight_insert (items : Items) (hash : Hash) (item : CacheItem) :
    weight (items.insert hash item).entries =
      item.size + weight (items.erase hash).entries := by
  rw [AList.entries_insert, weight_cons]
  rfl

/-- The sum of the sizes is exact. -/
def State.Accounted (state : State) : Prop :=
  state.totalBytes = weight state.items.entries

theorem State.Accounted.removeItem {state : State}
    (accounted : state.Accounted) (hash : Hash) :
    (state.removeItem hash).Accounted := by
  unfold State.removeItem
  split <;> rename_i found
  · have total := weight_erase_of_lookup found
    unfold State.Accounted at accounted ⊢
    dsimp only
    omega
  · exact accounted

theorem Memory.accounted_inserted {memory : Memory}
    (accounted : memory.state.Accounted) (hash : Hash) (size : Nat) :
    (memory.inserted hash size).Accounted := by
  unfold State.Accounted at accounted ⊢
  simp only [Memory.inserted, weight_insert]
  split <;> rename_i found
  · have total := weight_erase_of_lookup found
    omega
  · rw [erase_of_lookup_eq_none found]
    omega

/-! ## The victims -/

/-- The shortest part whose removal leaves no more than the capacity. -/
structure IsShortest (capacity : Nat) (entries : List Entry) (count : Nat) :
    Prop where
  enough : weight (entries.drop count) ≤ capacity
  needed : ∀ fewer, fewer < count → capacity < weight (entries.drop fewer)

theorem victims_eq (capacity freed : Nat) (entries : List Entry) :
    ∃ count, victims capacity (freed + weight entries) freed entries =
        (entries.take count).map (·.1) ∧
      IsShortest capacity entries count := by
  induction entries generalizing freed with
  | nil => exact ⟨0, rfl, Nat.zero_le _, fun fewer below =>
      absurd below (Nat.not_lt_zero _)⟩
  | cons entry entries ih =>
      rw [victims, Nat.add_sub_cancel_left]
      split <;> rename_i fits
      · exact ⟨0, rfl, fits, fun fewer below =>
          absurd below (Nat.not_lt_zero _)⟩
      · obtain ⟨count, gone, shortest⟩ := ih (freed + entry.2.size)
        refine ⟨count + 1, ?_, shortest.enough, ?_⟩
        · rw [weight_cons, ← Nat.add_assoc, gone]
          rfl
        · intro fewer below
          cases fewer with
          | zero => exact Nat.lt_of_not_le fits
          | succ fewer =>
              exact shortest.needed fewer (Nat.lt_of_succ_lt_succ below)

theorem lookup_of_perm {items : Items} {entries : List Entry}
    (perm : items.entries.Perm entries) {entry : Entry} :
    items.lookup entry.1 = some entry.2 ↔ entry ∈ entries := by
  rw [← perm.mem_iff]
  exact List.mem_dlookup_iff items.nodupKeys

theorem entries_removeItem {state : State} {entry : Entry}
    {kept : List Entry} (perm : state.items.entries.Perm (entry :: kept)) :
    (state.removeItem entry.1).items.entries.Perm kept := by
  have found : state.items.lookup entry.1 = some entry.2 :=
    (lookup_of_perm perm).mpr List.mem_cons_self
  rw [State.removeItem, found]
  exact ((perm_erase_of_lookup found).symm.trans perm).cons_inv

theorem removeItems {gone kept : List Entry} {state : State}
    (accounted : state.Accounted)
    (perm : state.items.entries.Perm (gone ++ kept)) :
    (((gone.map (·.1)).foldl State.removeItem state).items.entries.Perm kept) ∧
      ((gone.map (·.1)).foldl State.removeItem state).Accounted := by
  induction gone generalizing state with
  | nil => exact ⟨perm, accounted⟩
  | cons entry gone ih =>
      exact ih (accounted.removeItem entry.1) (entries_removeItem perm)

def Older (left right : Entry) : Prop :=
  left.2.lastAccess ≤ right.2.lastAccess

theorem byLastAccess_perm (entries : List Entry) :
    (byLastAccess entries).Perm entries := List.mergeSort_perm _ _

theorem byLastAccess_pairwise (entries : List Entry) :
    (byLastAccess entries).Pairwise Older := by
  have sorted := @List.pairwise_mergeSort _
    (fun left right : Entry => left.2.lastAccess ≤ right.2.lastAccess)
    (by simp only [decide_eq_true_eq]; omega)
    (by simp only [Bool.or_eq_true, decide_eq_true_eq]; omega) entries
  exact sorted.imp fun holds => by simpa [Older] using holds

/-- The items that go are a shortest sufficient part, oldest access first, and
the others stay. -/
def EvictsOldest (capacity : Nat) (before : Items) (gone : List Hash)
    (after : Items) : Prop :=
  ∃ sorted count, sorted.Perm before.entries ∧ sorted.Pairwise Older ∧
    IsShortest capacity sorted count ∧
    gone = (sorted.take count).map (·.1) ∧
    after.entries.Perm (sorted.drop count)

theorem State.Accounted.evictLocked {state : State}
    (accounted : state.Accounted) (capacity : Nat) {order : List Entry}
    (walked : order.Perm state.items.entries) :
    EvictsOldest capacity state.items (state.evictLocked capacity order).2
        (state.evictLocked capacity order).1.items ∧
      (state.evictLocked capacity order).1.Accounted ∧
      (state.evictLocked capacity order).1.totalBytes ≤ capacity := by
  have perm := (byLastAccess_perm order).trans walked
  have total : state.totalBytes = weight (byLastAccess order) :=
    accounted.trans (weight_perm perm).symm
  unfold State.evictLocked
  split <;> rename_i fits
  · refine ⟨⟨byLastAccess order, 0, perm, byLastAccess_pairwise order, ⟨?_, ?_⟩,
      rfl, perm.symm⟩, accounted, fits⟩
    · rw [List.drop_zero, ← total]
      exact fits
    · intro fewer below
      exact absurd below (Nat.not_lt_zero _)
  · obtain ⟨count, gone, shortest⟩ :=
      victims_eq capacity 0 (byLastAccess order)
    rw [Nat.zero_add, ← total] at gone
    dsimp only
    rw [gone]
    have parts : state.items.entries.Perm
        ((byLastAccess order).take count ++ (byLastAccess order).drop count) := by
      rw [List.take_append_drop]
      exact perm.symm
    obtain ⟨kept, stillAccounted⟩ := removeItems accounted parts
    refine ⟨⟨byLastAccess order, count, perm, byLastAccess_pairwise order,
      shortest, rfl, kept⟩, stillAccounted, ?_⟩
    rw [stillAccounted, weight_perm kept]
    exact shortest.enough

/-- The newest item stays if it fits. -/
theorem EvictsOldest.keeps_newest {capacity : Nat} {before after : Items}
    {gone : List Hash} (evicts : EvictsOldest capacity before gone after)
    {hash : Hash} {item : CacheItem}
    (found : before.lookup hash = some item)
    (newest : ∀ other otherItem, other ≠ hash →
      before.lookup other = some otherItem →
      otherItem.lastAccess < item.lastAccess)
    (fits : item.size ≤ capacity) : after.lookup hash = some item := by
  obtain ⟨sorted, count, perm, older, shortest, _, kept⟩ := evicts
  have listed : (⟨hash, item⟩ : Entry) ∈ sorted :=
    (lookup_of_perm perm.symm).mp found
  obtain ⟨earlier, later, rfl⟩ := List.append_of_mem listed
  have last : later = [] := by
    apply List.eq_nil_iff_forall_not_mem.mpr
    intro other member
    have order := (List.pairwise_append.mp older).2.1
    have bound : item.lastAccess ≤ other.2.lastAccess :=
      (List.pairwise_cons.mp order).1 other member
    have distinct : other.1 ≠ hash := by
      have nodup := (List.perm_nodupKeys perm).mpr before.nodupKeys
      have middle := List.nodupKeys_middle.mp nodup
      have absent := (List.nodupKeys_cons.mp middle).1
      intro same
      apply absent
      rw [← same]
      exact List.mem_map.mpr ⟨other, List.mem_append_right _ member, rfl⟩
    have there : before.lookup other.1 = some other.2 :=
      (lookup_of_perm perm.symm).mpr (by simp [member])
    have accessed := newest other.1 other.2 distinct there
    omega
  subst last
  have few : count ≤ earlier.length := by
    refine Nat.le_of_not_lt fun more => ?_
    have heavy := shortest.needed earlier.length more
    rw [List.drop_left, weight_cons, weight_nil] at heavy
    dsimp only at heavy
    omega
  have stays : (⟨hash, item⟩ : Entry) ∈
      (earlier ++ [(⟨hash, item⟩ : Entry)]).drop count := by
    rw [List.drop_append_of_le_length few]
    exact List.mem_append_right _ List.mem_cons_self
  exact (lookup_of_perm kept).mpr stays

/-! ## Runs -/

inductive Access where
  | publish (hash : Hash) (size : Nat) (order : List Entry)
  | hit (hash : Hash)
  | forget (hash : Hash)

namespace Memory

/-- A publication has passed the check of its size; the order is one in which
the map may be walked through. -/
def step (memory : Memory) : Access → Option Memory
  | .publish hash size order =>
      if size ≤ memory.capacity ∧
          order.Perm (memory.inserted hash size).items.entries then
        some (memory.publish hash size order).1
      else none
  | .hit hash => memory.touch hash
  | .forget hash => some (memory.forgetItem hash)

/-- The sum is exact, and the next tick is newer than every access so far. -/
structure Counted (memory : Memory) : Prop where
  accounted : memory.state.Accounted
  ticks : ∀ hash item, memory.state.items.lookup hash = some item →
    item.lastAccess < memory.clock

theorem lookup_inserted (memory : Memory) (hash other : Hash) (size : Nat) :
    (memory.inserted hash size).items.lookup other =
      if other = hash then some ⟨size, memory.clock⟩
      else memory.state.items.lookup other := by
  simp only [inserted]
  by_cases same : other = hash
  · rw [if_pos same, same, AList.lookup_insert]
  · rw [if_neg same, AList.lookup_insert_ne same]

/-- What a publication does to the items. -/
structure Published (memory : Memory) (hash : Hash) (size : Nat)
    (gone : List Hash) (next : Memory) : Prop where
  evicts : EvictsOldest memory.capacity (memory.inserted hash size).items gone
    next.state.items
  kept : next.state.items.lookup hash = some ⟨size, memory.clock⟩
  bounded : next.state.totalBytes ≤ memory.capacity

theorem Counted.publish {memory : Memory} (counted : memory.Counted)
    {hash : Hash} {size : Nat} {order : List Entry}
    (fits : size ≤ memory.capacity)
    (walked : order.Perm (memory.inserted hash size).items.entries) :
    memory.Published hash size (memory.publish hash size order).2
        (memory.publish hash size order).1 ∧
      (memory.publish hash size order).1.Counted := by
  obtain ⟨evicts, accounted, bounded⟩ :=
    (accounted_inserted counted.accounted hash size).evictLocked
      memory.capacity walked
  have here : (memory.inserted hash size).items.lookup hash =
      some ⟨size, memory.clock⟩ := by
    rw [lookup_inserted, if_pos rfl]
  have newest : ∀ other item, other ≠ hash →
      (memory.inserted hash size).items.lookup other = some item →
      item.lastAccess < memory.clock := by
    intro other item distinct found
    rw [lookup_inserted, if_neg distinct] at found
    exact counted.ticks other item found
  refine ⟨⟨evicts, evicts.keeps_newest here newest fits, bounded⟩, accounted,
    ?_⟩
  intro other item found
  obtain ⟨sorted, count, perm, _, _, _, kept⟩ := evicts
  have listed : (⟨other, item⟩ : Entry) ∈ sorted :=
    List.mem_of_mem_drop ((lookup_of_perm kept).mp found)
  have before := (lookup_of_perm perm.symm).mpr listed
  change item.lastAccess < memory.clock + 1
  by_cases same : other = hash
  · subst same
    obtain rfl := Option.some.inj (before.symm.trans here)
    exact Nat.lt_succ_self _
  · exact Nat.lt_succ_of_lt (newest other item same before)

theorem lookup_removeItem_subset {state : State} {hash other : Hash}
    {item : CacheItem}
    (found : (state.removeItem hash).items.lookup other = some item) :
    state.items.lookup other = some item := by
  unfold State.removeItem at found
  split at found
  · by_cases same : other = hash
    · subst same
      rw [AList.lookup_erase] at found
      cases found
    · rwa [AList.lookup_erase_ne same] at found
  · exact found

theorem Counted.step {memory next : Memory} (counted : memory.Counted)
    {access : Access} (stepped : memory.step access = some next) :
    next.Counted := by
  cases access with
  | publish hash size order =>
      simp only [Memory.step] at stepped
      split at stepped <;> rename_i enabled
      · obtain rfl := Option.some.inj stepped
        exact (counted.publish enabled.1 enabled.2).2
      · cases stepped
  | hit hash =>
      simp only [Memory.step, touch] at stepped
      split at stepped <;> rename_i found
      · cases stepped
      · rename_i item
        obtain rfl := Option.some.inj stepped
        constructor
        · have accounted := counted.accounted
          have total := weight_erase_of_lookup found
          unfold State.Accounted at accounted ⊢
          rw [weight_insert]
          dsimp only
          omega
        · intro other otherItem looked
          dsimp only at looked ⊢
          by_cases same : other = hash
          · subst same
            rw [AList.lookup_insert] at looked
            obtain rfl := Option.some.inj looked
            exact Nat.lt_succ_self _
          · rw [AList.lookup_insert_ne same] at looked
            exact Nat.lt_succ_of_lt (counted.ticks other otherItem looked)
  | forget hash =>
      obtain rfl := Option.some.inj stepped
      exact ⟨counted.accounted.removeItem hash, fun other item found =>
        counted.ticks other item (lookup_removeItem_subset found)⟩

end Memory

/-! ## The initial scan -/

/-- A regular file of a shard that can be read. -/
def placedEntry (shard : List Char) (entry : DirEntry) :
    Option (ItemPath × Metadata) :=
  match entry.fileName, entry.metadata with
  | some hash, some metadata =>
      if metadata.isFile then some ((shard, hash), metadata) else none
  | _, _ => none

/-- The files that the scan finds, with their places, in its order. -/
def placedFiles (root : Option (List Shard)) : List (ItemPath × Metadata) :=
  (root.getD []).flatMap fun shard =>
    if shard.fileName = tmpDir then []
    else if shard.isDir then
      (shard.entries.getD []).filterMap (placedEntry shard.fileName)
    else []

/-- A file without its shard, as the scan keeps it. -/
def unplaced (file : ItemPath × Metadata) : Hash × Metadata :=
  (file.1.2, file.2)

def foundFiles (root : Option (List Shard)) : List (Hash × Metadata) :=
  (placedFiles root).map unplaced

def scanFile (scan : Scan) (file : Hash × Metadata) : Scan :=
  ({ items := scan.1.items.insert file.1
       { size := file.2.len
         lastAccess := file.2.modified.getD 0 }
     totalBytes := scan.1.totalBytes + file.2.len },
    max scan.2 (file.2.modified.getD 0))

theorem scanEntries_eq (shard : List Char) (listed : List DirEntry)
    (scan : Scan) :
    listed.foldl scanEntry scan =
      ((listed.filterMap (placedEntry shard)).map unplaced).foldl scanFile
        scan := by
  induction listed generalizing scan with
  | nil => rfl
  | cons entry listed ih =>
      obtain ⟨fileName, metadata⟩ := entry
      cases fileName with
      | none => exact ih scan
      | some hash =>
          cases metadata with
          | none => exact ih scan
          | some metadata =>
              rw [List.foldl_cons, ih]
              by_cases isFile : metadata.isFile
              · simp [scanEntry, scanFile, placedEntry, unplaced, isFile]
              · simp [scanEntry, placedEntry, isFile]

theorem scanExisting_eq (root : Option (List Shard)) :
    scanExisting root = (foundFiles root).foldl scanFile (.empty, 0) := by
  have shards : ∀ (listed : List Shard) (scan : Scan),
      listed.foldl scanShard scan =
        (foundFiles (some listed)).foldl scanFile scan := by
    intro listed
    induction listed with
    | nil => exact fun _ => rfl
    | cons shard listed ih =>
        intro scan
        rw [List.foldl_cons, ih]
        simp only [foundFiles, placedFiles, Option.getD_some,
          List.flatMap_cons, List.map_append, List.foldl_append]
        congr 1
        unfold scanShard
        split
        · rfl
        split
        · exact scanEntries_eq _ _ _
        · rfl
  cases root with
  | none => rfl
  | some listed => exact shards listed _

/-- A file with the name of a file that is found later is empty. -/
def NoneHidden (files : List (Hash × Metadata)) : Prop :=
  files.Pairwise fun file later => file.1 = later.1 → file.2.len = 0

instance (files : List (Hash × Metadata)) : Decidable (NoneHidden files) :=
  inferInstanceAs (Decidable (files.Pairwise _))

/-- The scan of these files. -/
def scanFiles (files : List (Hash × Metadata)) : Scan :=
  files.foldl scanFile (.empty, 0)

theorem scanFiles_concat (files : List (Hash × Metadata))
    (file : Hash × Metadata) :
    scanFiles (files ++ [file]) = scanFile (scanFiles files) file := by
  rw [scanFiles, List.foldl_append]
  rfl

theorem lookup_scanFile (scan : Scan) (file : Hash × Metadata) (hash : Hash) :
    (scanFile scan file).1.items.lookup hash =
      if hash = file.1 then some ⟨file.2.len, file.2.modified.getD 0⟩
      else scan.1.items.lookup hash := by
  simp only [scanFile]
  by_cases same : hash = file.1
  · rw [if_pos same, same, AList.lookup_insert]
  · rw [if_neg same, AList.lookup_insert_ne same]

theorem noneHidden_concat {files : List (Hash × Metadata)}
    {file : Hash × Metadata} :
    NoneHidden (files ++ [file]) ↔ NoneHidden files ∧
      ∀ earlier ∈ files, earlier.1 = file.1 → earlier.2.len = 0 := by
  simp [NoneHidden, List.pairwise_append]

/-- Every item of the scan is a file that was found. -/
theorem found_of_lookup (files : List (Hash × Metadata)) {hash : Hash}
    {item : CacheItem}
    (looked : (scanFiles files).1.items.lookup hash = some item) :
    ∃ file ∈ files, file.1 = hash ∧ file.2.len = item.size ∧
      file.2.modified.getD 0 = item.lastAccess := by
  induction files using List.reverseRecOn with
  | nil => cases looked
  | append_singleton files file ih =>
      rw [scanFiles_concat, lookup_scanFile] at looked
      split at looked <;> rename_i same
      · obtain rfl := Option.some.inj looked
        exact ⟨file, by simp, same.symm, rfl, rfl⟩
      · obtain ⟨other, member, shape⟩ := ih looked
        exact ⟨other, List.mem_append_left _ member, shape⟩

/-- A file that is not empty is found under its name, if none is hidden. -/
theorem lookup_of_found {files : List (Hash × Metadata)}
    (noneHidden : NoneHidden files) {file : Hash × Metadata}
    (member : file ∈ files) :
    ∃ item, (scanFiles files).1.items.lookup file.1 = some item ∧
      (file.2.len = 0 ∨ file.2.len = item.size) := by
  induction files using List.reverseRecOn with
  | nil => cases member
  | append_singleton files last ih =>
      obtain ⟨earlier, hidden⟩ := noneHidden_concat.mp noneHidden
      rw [scanFiles_concat, lookup_scanFile]
      by_cases same : file.1 = last.1
      · rw [if_pos same]
        refine ⟨_, rfl, ?_⟩
        rcases List.mem_append.mp member with before | here
        · exact Or.inl (hidden file before same)
        · obtain rfl := List.mem_singleton.mp here
          exact Or.inr rfl
      · rw [if_neg same]
        rcases List.mem_append.mp member with before | here
        · exact ih earlier before
        · obtain rfl := List.mem_singleton.mp here
          exact absurd rfl same

/-- The scan counts every file, and the items only those that are not
hidden. -/
theorem accounted_scanFiles (files : List (Hash × Metadata)) :
    weight (scanFiles files).1.items.entries ≤ (scanFiles files).1.totalBytes ∧
      ((scanFiles files).1.Accounted ↔ NoneHidden files) := by
  induction files using List.reverseRecOn with
  | nil => exact ⟨Nat.zero_le _, ⟨fun _ => List.Pairwise.nil, fun _ => rfl⟩⟩
  | append_singleton files file ih =>
      obtain ⟨bound, accounted⟩ := ih
      have inserted : weight (scanFile (scanFiles files) file).1.items.entries =
          file.2.len + weight
            ((scanFiles files).1.items.erase file.1).entries :=
        weight_insert _ _ _
      have total : (scanFile (scanFiles files) file).1.totalBytes =
          (scanFiles files).1.totalBytes + file.2.len := rfl
      rw [scanFiles_concat, State.Accounted, inserted, total, noneHidden_concat,
        ← accounted, State.Accounted]
      cases looked : (scanFiles files).1.items.lookup file.1 with
      | none =>
          rw [erase_of_lookup_eq_none looked]
          refine ⟨by omega, ?_⟩
          constructor
          · intro exactly
            have before : (scanFiles files).1.Accounted := by
              unfold State.Accounted
              omega
            refine ⟨before, fun other member same => ?_⟩
            obtain ⟨item, there, _⟩ :=
              lookup_of_found (accounted.mp before) member
            rw [same, looked] at there
            cases there
          · rintro ⟨before, _⟩
            omega
      | some item =>
          have split := weight_erase_of_lookup looked
          refine ⟨by omega, ?_⟩
          constructor
          · intro exactly
            have before : (scanFiles files).1.Accounted := by
              unfold State.Accounted
              omega
            refine ⟨before, fun other member same => ?_⟩
            obtain ⟨otherItem, there, size⟩ :=
              lookup_of_found (accounted.mp before) member
            rw [same, looked] at there
            obtain rfl := Option.some.inj there
            omega
          · rintro ⟨before, hidden⟩
            obtain ⟨other, member, same, size, _⟩ := found_of_lookup files looked
            have empty := hidden other member same
            omega

theorem ticks_scanFiles (files : List (Hash × Metadata)) {hash : Hash}
    {item : CacheItem}
    (looked : (scanFiles files).1.items.lookup hash = some item) :
    item.lastAccess ≤ (scanFiles files).2 := by
  induction files using List.reverseRecOn with
  | nil => cases looked
  | append_singleton files file ih =>
      rw [scanFiles_concat, lookup_scanFile] at looked
      rw [scanFiles_concat]
      change _ ≤ max (scanFiles files).2 (file.2.modified.getD 0)
      split at looked
      · obtain rfl := Option.some.inj looked
        exact Nat.le_max_right _ _
      · exact Nat.le_trans (ih looked) (Nat.le_max_left _ _)

theorem Memory.counted_new {root : Option (List Shard)} (capacity : Nat)
    (noneHidden : NoneHidden (foundFiles root)) :
    (Memory.new root capacity).Counted := by
  constructor
  · rw [Memory.new, scanExisting_eq]
    exact (accounted_scanFiles _).2.mpr noneHidden
  · intro hash item looked
    rw [Memory.new, scanExisting_eq] at looked ⊢
    exact Nat.lt_succ_of_le (ticks_scanFiles _ looked)

/-! ## The order of eviction -/

/-- What the cache promises in a state: the sum is exact, the next tick is
newer than every access so far, an access takes this tick, and a publication
evicts the oldest items, no more than it must, and keeps the new one. -/
structure Memory.KeepsRecent (memory : Memory) : Prop extends
    memory.Counted where
  hit : ∀ {hash next}, memory.step (.hit hash) = some next →
    ∃ item, memory.state.items.lookup hash = some item ∧
      next.state.items.lookup hash =
        some { item with lastAccess := memory.clock }
  publish : ∀ {hash size order next},
    memory.step (.publish hash size order) = some next →
    ∃ gone, memory.Published hash size gone next

theorem Memory.Counted.keepsRecent {memory : Memory}
    (counted : memory.Counted) : memory.KeepsRecent := by
  refine ⟨counted, ?_, ?_⟩
  · intro hash next stepped
    simp only [Memory.step, Memory.touch] at stepped
    split at stepped <;> rename_i found
    · cases stepped
    · obtain rfl := Option.some.inj stepped
      exact ⟨_, found, AList.lookup_insert _⟩
  · intro hash size order next stepped
    simp only [Memory.step] at stepped
    split at stepped <;> rename_i enabled
    · obtain rfl := Option.some.inj stepped
      exact ⟨_, (counted.publish enabled.1 enabled.2).1⟩
    · cases stepped

/-- Every state of every run keeps the most recent items exactly when the scan
at the start hid no file that has a size. -/
theorem keeps_recent_iff (root : Option (List Shard)) (capacity : Nat) :
    (∀ accesses memory,
      exec Memory.step (.new root capacity) accesses = some memory →
      memory.KeepsRecent) ↔ NoneHidden (foundFiles root) := by
  constructor
  · intro keeps
    have accounted := (keeps [] _ rfl).accounted
    rw [Memory.new, scanExisting_eq] at accounted
    exact (accounted_scanFiles _).2.mp accounted
  · intro noneHidden accesses memory run
    have preserved : ∀ (memory : Memory) access next, memory.Counted →
        memory.step access = some next → next.Counted :=
      fun memory access next counted stepped => counted.step stepped
    exact (exec_invariant_of_step preserved
      (Memory.counted_new capacity noneHidden) run).keepsRecent

/-- Two shards have a file of one name. -/
def doubledRoot : Option (List Shard) :=
  let file : DirEntry :=
    { fileName := some ['a', 'b', 'c']
      metadata := some
        { isFile := true
          len := 6
          modified := some 3 } }
  some
    [{ fileName := ['a', 'b']
       isDir := true
       entries := some [file] },
     { fileName := ['z', 'z']
       isDir := true
       entries := some [file] }]

theorem not_keeps_recent : ¬ ∀ (root : Option (List Shard)) (capacity : Nat)
    (accesses : List Access) (memory : Memory),
    exec Memory.step (.new root capacity) accesses = some memory →
    memory.KeepsRecent := by
  intro keeps
  have accounted := (keeps doubledRoot 10 [] _ rfl).accounted
  unfold State.Accounted at accounted
  exact absurd accounted (by decide)

end HfMount.Cache
