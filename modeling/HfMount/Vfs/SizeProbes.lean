import HfMount.Encryption.Content
import HfMount.Vfs.StaleViews

/-!
# Probing the plaintext sizes of encrypted files

A listing says how long the object of a file is; the plaintext size stands in
the header of the container.  A poll flags the files whose object has changed,
and a pass after it probes their headers and writes the sizes back.
-/

namespace HfMount.Vfs

open SlashPath Inode Poll Encryption

/-- One element of `pendingSizeProbes`. -/
structure SizeProbe where
  ino : Ino
  xetHash : Hash
  cipherSize : Nat
  deriving DecidableEq

/-- Files whose plaintext size needs a probe, with the object to probe. -/
def pendingSizeProbes (table : InodeTable) : List SizeProbe :=
  (table.values.filter (·.needsSizeProbe)).filterMap fun entry =>
    entry.xetHash.bind fun xetHash =>
      entry.cipherSize.map fun cipherSize => ⟨entry.inode, xetHash, cipherSize⟩

/-- An encrypted mount: the plaintext size in the header of each object, if it
is a container of the mount, and how files are revalidated. -/
structure EncryptedMount where
  objects : Hash → Option Nat
  settings : RevalidateSettings
  encrypting : settings.encrypting = true

/-- The header is fetched, parsed, and checked against the object size. -/
def EncryptedMount.probePlaintextSizeWith (mount : EncryptedMount)
    (reachable : Bool) (xetHash : Hash) (cipherSize : Nat) : Option Nat :=
  if reachable then
    (mount.objects xetHash).filter fun plaintext =>
      Content.ciphertextSize plaintext == some cipherSize
  else none

/-- The probe of a revalidation that has found another object. -/
def EncryptedMount.probeAnswer (mount : EncryptedMount) (reachable : Bool) :
    HeadAnswer → Option Nat
  | .found head =>
      head.size.bind
        (mount.probePlaintextSizeWith reachable (head.xetHash.getD []))
  | .missing => none
  | .failed => none

/-- The write-back of one probe goes by the inode number; a failed probe
leaves the flag. -/
def writeBackSize (table : InodeTable) (result : SizeProbe × Option Nat) :
    InodeTable :=
  match result.2 with
  | none => table
  | some plaintext =>
      table.modify result.1.ino fun entry =>
        if entry.isDirty then entry
        else
          { entry with
            size := plaintext
            needsSizeProbe := false }

def writeBackSizes (table : InodeTable)
    (results : List (SizeProbe × Option Nat)) : InodeTable :=
  results.foldl writeBackSize table

/-! ## What the remote makes of a file -/

/-- The size is the plaintext size of the object that the hash names. -/
def EncryptedMount.Sized (mount : EncryptedMount) (entry : InodeEntry) :
    Prop :=
  ∀ hash, entry.xetHash = some hash → mount.objects hash = some entry.size

/-- What matters for sizes is as it was. -/
structure SameSizes (old new : InodeEntry) : Prop where
  kind : new.kind = old.kind
  generation : new.dirtyGeneration = old.dirtyGeneration
  size : new.size = old.size
  xetHash : new.xetHash = old.xetHash
  cipherSize : new.cipherSize = old.cipherSize
  needsSizeProbe : new.needsSizeProbe = old.needsSizeProbe

theorem SameSizes.refl (entry : InodeEntry) : SameSizes entry entry :=
  ⟨rfl, rfl, rfl, rfl, rfl, rfl⟩

/-- A clean file has another object, and is flagged or has the size of it. -/
structure Renewed (mount : EncryptedMount) (old new : InodeEntry) :
    Prop where
  clean : old.dirtyGeneration = 0
  generation : new.dirtyGeneration = 0
  kind : new.kind = old.kind
  cipherSize : old.cipherSize.isSome = true → new.cipherSize.isSome = true
  sized : new.needsSizeProbe = false → mount.Sized new

inductive Learned (mount : EncryptedMount) (old new : InodeEntry) : Prop where
  | same (same : SameSizes old new)
  | renewed (renewed : Renewed mount old new)

/-- The files of the second table are those of the first, or some of them, as
the remote may have changed them. -/
structure Learns (mount : EncryptedMount) (before after : InodeTable) :
    Prop where
  entry : ∀ ino new, after.get ino = some new →
    ∃ old, before.get ino = some old ∧ Learned mount old new

section

variable {mount : EncryptedMount}

theorem Learned.trans {first second third : InodeEntry}
    (left : Learned mount first second) (right : Learned mount second third) :
    Learned mount first third := by
  cases left with
  | same left =>
      cases right with
      | same right =>
          exact .same ⟨right.kind.trans left.kind,
            right.generation.trans left.generation,
            right.size.trans left.size, right.xetHash.trans left.xetHash,
            right.cipherSize.trans left.cipherSize,
            right.needsSizeProbe.trans left.needsSizeProbe⟩
      | renewed right =>
          refine .renewed ⟨left.generation ▸ right.clean, right.generation,
            right.kind.trans left.kind, ?_, right.sized⟩
          intro ciphered
          exact right.cipherSize (left.cipherSize ▸ ciphered)
  | renewed left =>
      cases right with
      | same right =>
          refine .renewed ⟨left.clean, right.generation.trans left.generation,
            right.kind.trans left.kind, ?_, ?_⟩
          · intro ciphered
            rw [right.cipherSize]
            exact left.cipherSize ciphered
          · intro unflagged
            rw [right.needsSizeProbe] at unflagged
            unfold EncryptedMount.Sized
            rw [right.xetHash, right.size]
            exact left.sized unflagged
      | renewed right =>
          exact .renewed ⟨left.clean, right.generation,
            right.kind.trans left.kind,
            fun ciphered => right.cipherSize (left.cipherSize ciphered),
            right.sized⟩

theorem Learned.kind_eq {old new : InodeEntry}
    (learned : Learned mount old new) : new.kind = old.kind := by
  cases learned with
  | same same => exact same.kind
  | renewed renewed => exact renewed.kind

theorem Learns.refl (table : InodeTable) : Learns mount table table :=
  ⟨fun _ new found => ⟨new, found, .same (.refl new)⟩⟩

theorem Learns.trans {first second third : InodeTable}
    (left : Learns mount first second) (right : Learns mount second third) :
    Learns mount first third := by
  constructor
  intro ino new found
  obtain ⟨middle, foundMiddle, learnedRight⟩ := right.entry ino new found
  obtain ⟨old, foundOld, learnedLeft⟩ := left.entry ino middle foundMiddle
  exact ⟨old, foundOld, learnedLeft.trans learnedRight⟩

theorem learns_put {table : InodeTable} {ino : Ino} {old new : InodeEntry}
    (found : table.get ino = some old) (learned : Learned mount old new) :
    Learns mount table (table.put ino new) := by
  constructor
  intro other entry got
  rw [InodeTable.get_put] at got
  split at got <;> rename_i here
  · obtain rfl := Option.some.inj got
    exact ⟨old, here ▸ found, learned⟩
  · exact ⟨entry, got, .same (.refl entry)⟩

theorem learns_modify (table : InodeTable) (ino : Ino)
    {change : InodeEntry → InodeEntry}
    (learned : ∀ entry, table.get ino = some entry →
      Learned mount entry (change entry)) :
    Learns mount table (table.modify ino change) := by
  cases found : table.get ino with
  | none =>
      rw [InodeTable.modify_of_none found]
      exact .refl table
  | some entry =>
      rw [InodeTable.modify_of_some found]
      exact learns_put found (learned entry found)

theorem learns_fields (table : InodeTable) (ino : Ino)
    {change : InodeEntry → InodeEntry}
    (same : ∀ entry, SameSizes entry (change entry)) :
    Learns mount table (table.modify ino change) :=
  learns_modify table ino fun entry _ => .same (same entry)

theorem learns_forget (table : InodeTable) (ino : Ino) (path : Path) :
    Learns mount table ((table.erase ino).removePath path) := by
  constructor
  intro other entry got
  rw [InodeTable.get_removePath, InodeTable.get_erase] at got
  split at got
  · cases got
  · exact ⟨entry, got, .same (.refl entry)⟩

theorem learns_foldl {α : Type} {change : InodeTable → α → InodeTable}
    (items : List α) (table : InodeTable)
    (each : ∀ item ∈ items, ∀ table, Learns mount table (change table item)) :
    Learns mount table (items.foldl change table) := by
  induction items generalizing table with
  | nil => exact .refl table
  | cons item items ih =>
      apply (each item List.mem_cons_self table).trans
      apply ih
      intro other listed
      exact each other (List.mem_cons_of_mem _ listed)

theorem sameSizes_removeChildByIno (entry : InodeEntry) (ino : Ino) :
    SameSizes entry (entry.removeChildByIno ino) := by
  unfold InodeEntry.removeChildByIno
  split <;> exact ⟨rfl, rfl, rfl, rfl, rfl, rfl⟩

theorem sameSizes_removeChildByName (entry : InodeEntry) (name : Name) :
    SameSizes entry (entry.removeChildByName name) := by
  unfold InodeEntry.removeChildByName
  split <;> exact ⟨rfl, rfl, rfl, rfl, rfl, rfl⟩

/-! ## Removals -/

theorem learns_unlinkOne (table : InodeTable) (parent : Ino) (name : Name)
    (now : Time) : Learns mount table (table.unlinkOne parent name now).2 := by
  unfold InodeTable.unlinkOne
  split
  · exact .refl table
  split
  · exact .refl table
  have unnamed : ∀ path, Learns mount table
      ((table.modify parent (·.removeChildByName name)).removePath path) := by
    intro path
    constructor
    intro ino new got
    exact (learns_fields table parent
      (sameSizes_removeChildByName · name)).entry ino new got
  dsimp only
  split <;> rename_i found
  · exact unnamed _
  · exact (unnamed _).trans
      (learns_put found (.same ⟨rfl, rfl, rfl, rfl, rfl, rfl⟩))

theorem learns_dropEntry (table : InodeTable) (ino : Ino) :
    Learns mount table (table.dropEntry ino) := by
  unfold InodeTable.dropEntry
  split
  · exact learns_forget table ino _
  · exact .refl table

theorem learns_remove (table : InodeTable) (ino : Ino) :
    Learns mount table (table.remove ino) := by
  unfold InodeTable.remove
  split
  · exact .refl table
  · refine ((learns_dropEntry table ino).trans ?_).trans
      (learns_foldl _ _ fun other _ table => learns_dropEntry table other)
    apply learns_fields
    intro entry
    have same := sameSizes_removeChildByIno entry ino
    exact ⟨same.kind, same.generation, same.size, same.xetHash,
      same.cipherSize, same.needsSizeProbe⟩

theorem learns_removeRemoteFile (table : InodeTable) (ino : Ino)
    (now : Time) : Learns mount table (removeRemoteFile table ino now).2.1 := by
  unfold removeRemoteFile
  split
  · exact .refl table
  split
  · exact .refl table
  dsimp only
  split
  · exact learns_unlinkOne _ _ _ _
  · exact learns_remove _ _

/-! ## Updates -/

/-- The update of an encrypted file flags it. -/
structure Flags (update : Update) : Prop where
  cipherSize : update.cipherSize.isSome = true
  needsSizeProbe : update.needsSizeProbe = true

theorem flags_of_diffUpdate {entries : List TreeEntry} {now : Time}
    {seen : InodeEntry} {update : Update}
    (encrypted : seen.cipherSize.isSome = true)
    (updated : diffUpdate entries now seen = some update) : Flags update := by
  unfold diffUpdate at updated
  split at updated
  · cases updated
  split at updated
  · cases updated
  dsimp only at updated
  split at updated
  · obtain rfl := Option.some.inj updated
    exact ⟨by simpa using encrypted, encrypted⟩
  · cases updated

theorem learns_applyUpdate {update : Update} (flags : Flags update)
    (table : InodeTable) : Learns mount table (applyUpdate table update) := by
  unfold applyUpdate InodeTable.updateRemoteFile
  cases found : table.get update.ino with
  | none => exact .refl table
  | some entry =>
      dsimp only
      by_cases dirty : entry.isDirty = true
      · rw [if_pos dirty]
        exact .refl table
      · rw [if_neg dirty]
        have clean : entry.dirtyGeneration = 0 :=
          InodeEntry.isDirty_eq_false_iff.mp (by simpa using dirty)
        simp only [if_true, InodeTable.modify, InodeTable.get_put_self]
        have putTwice : ∀ first second, Learned mount entry second →
            Learns mount table
              ((table.put update.ino first).put update.ino second) := by
          intro first second learned
          constructor
          intro other new got
          rw [InodeTable.get_put] at got
          split at got <;> rename_i here
          · obtain rfl := Option.some.inj got
            exact ⟨entry, here ▸ found, learned⟩
          · rw [InodeTable.get_put_of_ne _ here] at got
            exact ⟨new, got, .same (.refl new)⟩
        apply putTwice
        refine .renewed ⟨clean, clean, rfl, fun _ => flags.cipherSize, ?_⟩
        intro unflagged
        rw [flags.needsSizeProbe] at unflagged
        cases unflagged

theorem learns_applyPollSnapshot {snapshot : List InodeEntry}
    (encrypted : ∀ seen ∈ snapshot, seen.cipherSize.isSome = true)
    (entries : List TreeEntry) (prefixes : List Path) (now : Time)
    (table : InodeTable) :
    Learns mount table
      (applyPollSnapshot snapshot entries prefixes now table) := by
  unfold applyPollSnapshot
  refine ((learns_foldl _ _ ?_).trans (learns_foldl _ _ ?_)).trans
    (learns_foldl _ _ ?_)
  · intro update listed current
    obtain ⟨seen, inSnapshot, updated⟩ := List.mem_filterMap.mp listed
    exact learns_applyUpdate
      (flags_of_diffUpdate (encrypted seen inSnapshot) updated) current
  · intro ino _ current
    exact learns_removeRemoteFile current ino now
  · intro dir _ current
    exact learns_fields current dir.1 fun _ => ⟨rfl, rfl, rfl, rfl, rfl, rfl⟩

/-! ## Probes -/

theorem probePlaintextSizeWith_eq_some {reachable : Bool} {xetHash : Hash}
    {cipherSize plaintext : Nat}
    (probed : mount.probePlaintextSizeWith reachable xetHash cipherSize =
      some plaintext) : mount.objects xetHash = some plaintext := by
  unfold EncryptedMount.probePlaintextSizeWith at probed
  split at probed
  · exact (Option.filter_eq_some_iff.mp probed).1
  · cases probed

theorem learns_revalidateFile (table : InodeTable) (call : Revalidation)
    (answer : HeadAnswer) (reachable : Bool) (now : Time) :
    Learns mount table (revalidateFile mount.settings table call answer
      (mount.probeAnswer reachable answer) now).1 := by
  have stamped : ∀ current : InodeTable, Learns mount current
      (current.modify call.ino fun entry =>
        { entry with lastRevalidated := some now }) :=
    fun current => learns_fields current call.ino
      fun _ => ⟨rfl, rfl, rfl, rfl, rfl, rfl⟩
  unfold revalidateFile
  split
  · exact .refl table
  · exact learns_remove table call.ino
  rename_i head
  split
  · split <;> rename_i sized
    · exact .refl table
    rename_i sizes
    obtain ⟨cipherSize, isSize, sized⟩ := Option.bind_eq_some_iff.mp sized
    simp only [RevalidateSettings.sizes, mount.encrypting, if_true,
      EncryptedMount.probeAnswer, isSize, Option.bind_some,
      Option.map_eq_some_iff] at sized
    obtain ⟨plaintext, probed, rfl⟩ := sized
    have isObject := probePlaintextSizeWith_eq_some probed
    refine Learns.trans ?_ (stamped _)
    unfold InodeTable.updateRemoteFile
    split <;> rename_i found
    · exact .refl table
    split <;> rename_i dirty
    · exact .refl table
    have clean := InodeEntry.isDirty_eq_false_iff.mp (by simpa using dirty)
    apply learns_put found
    refine .renewed ⟨clean, clean, rfl, fun _ => rfl, ?_⟩
    intro _ hash named
    dsimp only at named
    rw [named] at isObject
    exact isObject
  · refine Learns.trans ?_ (stamped _)
    split
    · exact learns_fields table call.ino
        fun _ => ⟨rfl, rfl, rfl, rfl, rfl, rfl⟩
    · exact .refl table

/-! ## Writing the sizes back -/

/-- A clean file still has the hash that was probed. -/
def StillProbed (table : InodeTable) (probe : SizeProbe) : Prop :=
  ∀ entry ∈ table.get probe.ino, entry.isDirty = false →
    entry.xetHash = some probe.xetHash

instance (table : InodeTable) (probe : SizeProbe) :
    Decidable (StillProbed table probe) := by
  unfold StillProbed
  infer_instance

theorem learns_writeBackSize {table : InodeTable}
    {result : SizeProbe × Option Nat}
    (probed : ∀ plaintext, result.2 = some plaintext →
      mount.objects result.1.xetHash = some plaintext)
    (still : result.2.isSome = true → StillProbed table result.1) :
    Learns mount table (writeBackSize table result) := by
  unfold writeBackSize
  split <;> rename_i isResult
  · exact .refl table
  rename_i plaintext
  apply learns_modify
  intro entry found
  split <;> rename_i dirty
  · exact .same (.refl entry)
  have clean : entry.isDirty = false := by simpa using dirty
  have generation := InodeEntry.isDirty_eq_false_iff.mp clean
  refine .renewed ⟨generation, generation, rfl, fun ciphered => ciphered, ?_⟩
  intro _ hash named
  have same := still (by rw [isResult]; rfl) entry found clean
  dsimp only at named
  rw [same] at named
  cases named
  exact probed plaintext isResult

/-- Writing a size back changes no hash. -/
theorem stillProbed_writeBackSize {table : InodeTable} {probe : SizeProbe}
    (still : StillProbed table probe) (result : SizeProbe × Option Nat) :
    StillProbed (writeBackSize table result) probe := by
  unfold writeBackSize
  split
  · exact still
  intro entry found clean
  rw [Option.mem_def, InodeTable.get_modify] at found
  split at found <;> rename_i here
  · obtain ⟨old, foundOld, rfl⟩ := Option.map_eq_some_iff.mp found
    rw [← here] at foundOld
    split at clean <;> rename_i dirty
    · rw [dirty] at clean
      cases clean
    · rw [if_neg dirty]
      exact still old foundOld (by simpa using dirty)
  · exact still entry found clean

theorem learns_writeBackSizes {results : List (SizeProbe × Option Nat)}
    {table : InodeTable}
    (probed : ∀ result ∈ results, ∀ plaintext, result.2 = some plaintext →
      mount.objects result.1.xetHash = some plaintext)
    (still : ∀ result ∈ results, result.2.isSome = true →
      StillProbed table result.1) :
    Learns mount table (writeBackSizes table results) := by
  unfold writeBackSizes
  induction results generalizing table with
  | nil => exact .refl table
  | cons result results ih =>
      apply (learns_writeBackSize (probed result List.mem_cons_self)
        (still result List.mem_cons_self)).trans
      apply ih
      · exact fun other listed => probed other (List.mem_cons_of_mem _ listed)
      · intro other listed isProbed
        exact stillProbed_writeBackSize
          (still other (List.mem_cons_of_mem _ listed) isProbed) result

end

end HfMount.Vfs
