import HfMount.Encryption.StoredNames
import HfMount.Hub.ListTree

/-!
# The view of a remote listing

What lies below a directory is stored below its stored path, and what is
listed below that path is shown below the directory.  `Shows` relates a remote
path to the path that the mount shows for it.
-/

namespace HfMount.Hub

open SlashPath Poll Encryption

/-! ## Encrypted paths below a directory -/

section

variable {cipher : Hctr2}

theorem encryptComponents_append {parent : Path} {left right storeds : List Name}
    (encrypted : encryptComponents cipher parent (left ++ right) =
      some (.ok storeds)) :
    ∃ first second, storeds = first ++ second ∧
      encryptComponents cipher parent left = some (.ok first) := by
  induction left generalizing parent storeds with
  | nil => exact ⟨[], storeds, rfl, rfl⟩
  | cons comp comps ih =>
      obtain ⟨stored, rest, rfl, head, later⟩ := encryptComponents_cons encrypted
      obtain ⟨first, second, rfl, tail⟩ := ih later
      refine ⟨stored :: first, second, rfl, ?_⟩
      simp [encryptComponents, head, tail, Except.map]

theorem decryptComponents_append {parent : Path} {left right names : List Name}
    (read : decryptComponents cipher parent (left ++ right) = some names) :
    ∃ first second, names = first ++ second ∧
      decryptComponents cipher parent left = some first ∧
      second.length = right.length := by
  induction left generalizing parent names with
  | nil =>
      refine ⟨[], names, rfl, rfl, ?_⟩
      rw [List.nil_append] at read
      induction right generalizing parent names with
      | nil =>
          obtain rfl : [] = names := by simpa [decryptComponents] using read
          rfl
      | cons stored storeds ih =>
          obtain ⟨name, rest, rfl, _, later⟩ := decryptComponents_cons read
          simp [ih later]
  | cons stored storeds ih =>
      obtain ⟨name, rest, rfl, head, later⟩ := decryptComponents_cons read
      obtain ⟨first, second, rfl, tail, length⟩ := ih later
      refine ⟨name :: first, second, rfl, ?_, length⟩
      simp [decryptComponents, head, tail]

/-- What lies below a directory is stored below its stored path. -/
theorem encryptPath_below (inverts : cipher.Inverts) {dir rel stored storedDir : Path}
    (nonempty : rel ≠ [])
    (encrypted : encryptPath cipher (childPath dir rel) = some (.ok stored))
    (encryptedDir : encryptPath cipher dir = some (.ok storedDir)) :
    StrictlyBelow storedDir stored := by
  obtain ⟨written, safe⟩ := inverts.path_components encrypted
  obtain ⟨writtenDir, _⟩ := inverts.path_components encryptedDir
  have length := (inverts.components_round_trip written).2.1
  have lengthDir := (inverts.components_round_trip writtenDir).2.1
  rw [components_childPath dir nonempty] at written length
  obtain ⟨first, second, split, leading⟩ := encryptComponents_append written
  rw [writtenDir] at leading
  obtain rfl : components storedDir = first := by simpa using leading
  have more : 0 < (components rel).length := by
    apply List.length_pos_of_ne_nil
    rw [components_of_ne_nil nonempty]
    exact List.splitOn_ne_nil '/' rel
  refine strictlyBelow_of_components split ?_ ?_
  · intro none
    rw [split, none, List.length_append, List.length_append,
      List.length_nil] at length
    omega
  · intro name member
    apply SafeName.valid
    apply safe
    rw [split]
    exact List.mem_append_right _ member

/-- What is stored below the stored path of a directory lies below it. -/
theorem decryptPath_below (inverts : cipher.Inverts) {dir stored storedDir plain : Path}
    (encryptedDir : encryptPath cipher dir = some (.ok storedDir))
    (below : StrictlyBelow storedDir stored)
    (read : decryptPath cipher stored = some plain) :
    StrictlyBelow dir plain := by
  obtain ⟨rel, nonempty, rfl⟩ := below
  obtain ⟨writtenDir, _⟩ := inverts.path_components encryptedDir
  have readDir := (inverts.components_round_trip writtenDir).1
  have names := decryptComponents_of_path read
  have valid := (spelled_of_decrypted names).2
  rw [components_childPath storedDir nonempty] at names
  obtain ⟨first, second, split, leading, length⟩ := decryptComponents_append names
  rw [readDir] at leading
  obtain rfl : components dir = first := Option.some.inj leading
  refine strictlyBelow_of_components split ?_ ?_
  · intro none
    rw [none] at length
    rw [components_of_ne_nil nonempty] at length
    exact List.splitOn_ne_nil '/' rel (List.length_eq_zero_iff.mp length.symm)
  · intro name member
    apply valid
    rw [split]
    exact List.mem_append_right _ member

end

/-! ## The mount prefix -/

theorem strictDescendantRel_eq_some_iff {path dir rel : Path} :
    strictDescendantRel path dir = some rel ↔
      rel ≠ [] ∧ path = dir ++ '/' :: rel := by
  unfold strictDescendantRel
  split <;> rename_i below
  · simp only [Bool.and_eq_true, List.isPrefixOf_iff_prefix,
      decide_eq_true_eq] at below
    obtain ⟨⟨tail, rfl⟩, long⟩ := below
    have drop : (dir ++ ['/'] ++ tail).drop (dir.length + 1) = tail := by
      apply List.drop_left'
      simp
    rw [drop]
    have some : tail ≠ [] := by
      rintro rfl
      simp at long
    constructor
    · intro same
      obtain rfl := Option.some.inj same
      exact ⟨some, by simp⟩
    · rintro ⟨_, same⟩
      simpa using same
  · simp only [reduceCtorEq, false_iff]
    rintro ⟨nonempty, rfl⟩
    have positive := List.length_pos_of_ne_nil nonempty
    apply below
    simp only [Bool.and_eq_true, List.isPrefixOf_iff_prefix, decide_eq_true_eq]
    refine ⟨⟨rel, by simp⟩, ?_⟩
    simp
    omega

theorem strictlyBelow_iff {path dir : Path} (nonempty : dir ≠ []) :
    (strictDescendantRel path dir).isSome ↔ StrictlyBelow dir path := by
  simp only [Option.isSome_iff_exists, strictDescendantRel_eq_some_iff,
    StrictlyBelow, childPath_of_ne_nil nonempty]

variable (client : HubApiClient)

theorem joined_root (noPrefix : client.pathPrefix = []) (path : Path) :
    joined client path = path := by
  simp [joined, noPrefix]

/-- A path that is not the root, below the mount prefix. -/
theorem joined_eq {path : Path} (nonempty : path ≠ []) :
    joined client path = childPath client.pathPrefix path := by
  unfold joined childPath
  split
  · rfl
  · rw [if_neg (by simpa using nonempty)]

theorem joined_childPath (dir : Path) {rel : Path} (nonempty : rel ≠ []) :
    joined client (childPath dir rel) = childPath (joined client dir) rel := by
  by_cases root : dir = []
  · subst root
    rw [childPath_nil, joined_eq client nonempty]
    congr 1
    unfold joined
    split <;> simp_all
  · rw [joined_eq client root, joined_eq client (by
      rw [childPath_of_ne_nil root]
      simp), childPath_of_ne_nil root]
    unfold childPath
    by_cases noPrefix : client.pathPrefix = []
    · simp [noPrefix, root]
    · simp [noPrefix]

theorem joined_injective {left right : Path} (leftNonempty : left ≠ [])
    (rightNonempty : right ≠ [])
    (same : joined client left = joined client right) : left = right := by
  rw [joined_eq client leftNonempty, joined_eq client rightNonempty] at same
  unfold childPath at same
  split at same
  · exact same
  · simpa using same

theorem stripPathPrefix_eq_some_iff {full path : Path} (nonempty : path ≠ []) :
    stripPathPrefix client full = some path ↔ full = joined client path := by
  unfold stripPathPrefix
  by_cases noPrefix : client.pathPrefix = []
  · simp [noPrefix, joined]
  · rw [if_neg (by simpa using noPrefix), joined_eq client nonempty,
      childPath_of_ne_nil noPrefix]
    split <;> rename_i same
    · rw [same]
      simp [Ne.symm nonempty]
    · rw [strictDescendantRel_eq_some_iff]
      simp [nonempty]

/-- Below the joined directory lies what is below the directory. -/
theorem strictlyBelow_joined {dir path : Path}
    (below : StrictlyBelow (joined client dir) (joined client path)) :
    StrictlyBelow dir path := by
  obtain ⟨rel, nonempty, same⟩ := below
  rw [← joined_childPath client dir nonempty] at same
  have inside : childPath dir rel ≠ [] := by
    unfold childPath
    split <;> simp [nonempty]
  refine ⟨rel, nonempty, joined_injective client ?_ inside same⟩
  rintro rfl
  rw [joined_eq client inside] at same
  by_cases noPrefix : client.pathPrefix = []
  · simp [joined, noPrefix] at same
    exact inside same
  · simp [joined, noPrefix, childPath_of_ne_nil] at same

/-! ## One entry -/

/-- The mount shows the remote path as `path`. -/
def Shows (remote path : Path) : Prop :=
  match client.pathCipher with
  | none => remote = joined client path
  | some cipher =>
      ∃ stored, remote = encRoot ++ '/' :: stored ∧
        decryptPath cipher stored = some (joined client path)

theorem storedPath_eq_some_iff {path stored : Path} :
    storedPath path = some stored ↔ path = encRoot ++ '/' :: stored := by
  simp only [storedPath, Option.bind_eq_some_iff, List.dropPrefix?_eq_some_iff,
    beq_iff_eq]
  constructor
  · rintro ⟨_, ⟨_, rfl, rfl⟩, _, rfl, rfl⟩
    rfl
  · rintro rfl
    exact ⟨_, ⟨_, rfl, rfl⟩, _, rfl, rfl⟩

theorem mem_retainBelow {api : RemotePath} {entries : List TreeEntry}
    {entry : TreeEntry} :
    entry ∈ retainBelow api entries ↔
      entry ∈ entries ∧
        (api.path = [] ∨ StrictlyBelow api.path entry.path) := by
  unfold retainBelow RemotePath.isEmpty
  split <;> rename_i root
  · simp [List.isEmpty_iff.mp root]
  · have nonempty : api.path ≠ [] := by simpa using root
    rw [List.mem_filter, strictlyBelow_iff nonempty]
    simp [nonempty]

theorem mem_decryptListing {entries : List TreeEntry} {entry : TreeEntry} :
    entry ∈ decryptListing client entries ↔
      ∃ source ∈ entries, entry = { source with path := entry.path } ∧
        match client.pathCipher with
        | none => source.path = entry.path
        | some cipher =>
            ∃ stored, source.path = encRoot ++ '/' :: stored ∧
              decryptPath cipher stored = some entry.path := by
  unfold decryptListing
  cases client.pathCipher with
  | none =>
      dsimp only
      constructor
      · intro member
        exact ⟨entry, member, rfl, rfl⟩
      · rintro ⟨source, member, same, path⟩
        rwa [same, ← path]
  | some cipher =>
      simp only [List.mem_filterMap, Option.map_eq_some_iff,
        Option.bind_eq_some_iff, storedPath_eq_some_iff]
      constructor
      · rintro ⟨source, member, plain, ⟨stored, remote, read⟩, rfl⟩
        exact ⟨source, member, rfl, stored, remote, read⟩
      · rintro ⟨source, member, same, stored, remote, read⟩
        exact ⟨source, member, entry.path, ⟨stored, remote, read⟩, same.symm⟩

theorem stripEntry_eq_some_iff {entry shown : TreeEntry} :
    stripEntry client entry = some shown ↔
      shown = { entry with path := shown.path } ∧ shown.path ≠ [] ∧
        entry.path = joined client shown.path := by
  unfold stripEntry
  constructor
  · intro stripped
    split at stripped
    · rename_i path found
      split at stripped
      · cases stripped
      · rename_i some
        have nonempty : path ≠ [] := by simpa using some
        obtain rfl := Option.some.inj stripped
        exact ⟨rfl, nonempty,
          (stripPathPrefix_eq_some_iff client nonempty).mp found⟩
    · cases stripped
  · rintro ⟨same, nonempty, path⟩
    rw [(stripPathPrefix_eq_some_iff client nonempty).mpr path]
    simp only [List.isEmpty_iff, nonempty, if_false]
    rw [← same]

/-- What the view of a listing consists of. -/
theorem mem_viewListing {api : RemotePath} {entries : List TreeEntry}
    {entry : TreeEntry} :
    entry ∈ viewListing client api entries ↔
      ∃ source ∈ retainBelow api entries,
        entry = { source with path := entry.path } ∧
        Shows client source.path entry.path ∧
        (client.pathPrefix ≠ [] → entry.path ≠ []) := by
  unfold viewListing Shows
  dsimp only
  by_cases noPrefix : client.pathPrefix = []
  · simp only [noPrefix, List.isEmpty_nil, if_true, mem_decryptListing,
      joined_root client noPrefix, ne_eq, not_true, false_implies, and_true]
  · simp only [List.isEmpty_iff, noPrefix, if_false, List.mem_filterMap,
      mem_decryptListing, stripEntry_eq_some_iff]
    constructor
    · rintro ⟨plain, ⟨source, member, samePlain, shows⟩, same, nonempty, path⟩
      refine ⟨source, member, ?_, ?_, fun _ => nonempty⟩
      · rw [same, samePlain]
      · rwa [← path]
    · rintro ⟨source, member, same, shows, nonempty⟩
      exact ⟨{ source with path := joined client entry.path },
        ⟨source, member, rfl, shows⟩, same, nonempty noPrefix, rfl⟩

/-! ## A directory -/

/-- The remote path of a directory. -/
theorem prefixedPath_ok {path : Path} {api : RemotePath}
    (prefixed : prefixedPath client path = some (.ok api)) :
    match client.pathCipher with
    | none => api.path = joined client path
    | some cipher =>
        ∃ stored, encryptPath cipher (joined client path) = some (.ok stored) ∧
          api.path =
            if stored.isEmpty then encRoot else encRoot ++ '/' :: stored := by
  unfold prefixedPath at prefixed
  cases equation : client.pathCipher with
  | none =>
      rw [equation] at prefixed
      simp only [Option.some.injEq, Except.ok.injEq] at prefixed
      rw [← prefixed]
  | some cipher =>
      rw [equation] at prefixed
      dsimp only at prefixed ⊢
      split at prefixed
      · cases prefixed
      · cases prefixed
      · rename_i stored encrypted
        simp only [Option.some.injEq, Except.ok.injEq] at prefixed
        exact ⟨stored, encrypted, by rw [← prefixed]⟩

theorem strictlyBelow_encRoot {storedDir stored : Path} :
    StrictlyBelow
        (if storedDir.isEmpty then encRoot else encRoot ++ '/' :: storedDir)
        (encRoot ++ '/' :: stored) ↔
      StrictlyBelow storedDir stored := by
  unfold StrictlyBelow
  by_cases root : storedDir = []
  · subst root
    simp [childPath, encRoot]
  · simp [childPath, root, encRoot]

/-- The entry of a path below the directory is listed and shown. -/
theorem shown_of_listed (inverts : ∀ cipher ∈ client.pathCipher, cipher.Inverts)
    {dir rel : Path} {api target : RemotePath} (nonempty : rel ≠ [])
    (prefixed : prefixedPath client dir = some (.ok api))
    (inside : prefixedPath client (childPath dir rel) = some (.ok target)) :
    StrictlyBelow api.path target.path ∧
      Shows client target.path (childPath dir rel) := by
  have dirPath := prefixedPath_ok client prefixed
  have path := prefixedPath_ok client inside
  unfold Shows
  cases equation : client.pathCipher with
  | none =>
      rw [equation] at dirPath path
      simp only at dirPath path
      refine ⟨?_, path⟩
      rw [dirPath, path, joined_childPath client dir nonempty]
      exact ⟨rel, nonempty, rfl⟩
  | some cipher =>
      rw [equation] at dirPath path
      obtain ⟨storedDir, encryptedDir, apiPath⟩ := dirPath
      obtain ⟨stored, encrypted, targetPath⟩ := path
      have inverse := inverts cipher equation
      have read := inverse.path_round_trip encrypted
      have below := encryptPath_below inverse nonempty
        (joined_childPath client dir nonempty ▸ encrypted) encryptedDir
      have some : stored ≠ [] := by
        obtain ⟨more, moreNonempty, rfl⟩ := below
        unfold childPath
        split <;> simp [moreNonempty]
      rw [if_neg (by simpa using some)] at targetPath
      refine ⟨?_, stored, targetPath, read⟩
      rw [apiPath, targetPath]
      exact strictlyBelow_encRoot.mpr below

/-- What is shown for an entry strictly below the remote directory lies
strictly below the directory. -/
theorem below_of_shown (inverts : ∀ cipher ∈ client.pathCipher, cipher.Inverts)
    {dir remote path : Path} {api : RemotePath}
    (prefixed : prefixedPath client dir = some (.ok api))
    (below : StrictlyBelow api.path remote) (shows : Shows client remote path) :
    StrictlyBelow dir path := by
  have dirPath := prefixedPath_ok client prefixed
  apply strictlyBelow_joined client
  unfold Shows at shows
  cases equation : client.pathCipher with
  | none =>
      rw [equation] at dirPath shows
      simp only at dirPath shows
      rwa [← dirPath, ← shows]
  | some cipher =>
      rw [equation] at dirPath shows
      obtain ⟨storedDir, encryptedDir, apiPath⟩ := dirPath
      obtain ⟨stored, rfl, read⟩ := shows
      rw [apiPath, strictlyBelow_encRoot] at below
      exact decryptPath_below (inverts cipher equation) encryptedDir below read

/-- Without a cipher only the root of the bucket has the empty path. -/
theorem root_of_empty {dir : Path} {api : RemotePath}
    (prefixed : prefixedPath client dir = some (.ok api))
    (empty : api.path = []) :
    client.pathCipher = none ∧ client.pathPrefix = [] ∧ dir = [] := by
  have dirPath := prefixedPath_ok client prefixed
  cases equation : client.pathCipher with
  | none =>
      rw [equation] at dirPath
      simp only at dirPath
      rw [empty] at dirPath
      by_cases noPrefix : client.pathPrefix = []
      · rw [joined_root client noPrefix] at dirPath
        exact ⟨rfl, noPrefix, dirPath.symm⟩
      · by_cases root : dir = [] <;> simp [joined, noPrefix, root] at dirPath
  | some cipher =>
      rw [equation] at dirPath
      obtain ⟨stored, _, apiPath⟩ := dirPath
      rw [empty] at apiPath
      split at apiPath <;> simp [encRoot] at apiPath

theorem listTree_ok {server : RemotePath → Except Error (List TreeEntry)}
    {dir : Path} {view : List TreeEntry}
    (listed : listTree client server dir = some (.ok view)) :
    ∃ api entries, prefixedPath client dir = some (.ok api) ∧
      mapMissingRoot client dir (server api) = .ok entries ∧
      view = viewListing client api entries := by
  unfold listTree at listed
  obtain ⟨prefixed, found, result⟩ := Option.map_eq_some_iff.mp listed
  cases prefixed with
  | error error => cases result
  | ok api =>
      cases equation : mapMissingRoot client dir (server api) with
      | error error =>
          simp [equation, bind, Except.bind] at result
      | ok entries =>
          refine ⟨api, entries, found, equation, ?_⟩
          simpa [equation, bind, Except.bind, eq_comm] using result

/-- A listing of the server, or nothing where the root is missing. -/
theorem mapMissingRoot_ok {dir : Path}
    {result : Except Error (List TreeEntry)} {entries : List TreeEntry}
    (mapped : mapMissingRoot client dir result = .ok entries) :
    result = .ok entries ∨ entries = [] := by
  unfold mapMissingRoot at mapped
  split at mapped
  · split at mapped
    · exact Or.inr (Except.ok.inj mapped).symm
    · cases mapped
  · exact Or.inl mapped

/-- Every path below a directory that the server lists is shown under its own
path, and every path that is shown lies strictly below the directory and is
that of an entry strictly below the remote directory; an empty path can be
shown in the root of a bucket, if the server lists one. -/
theorem list_tree_faithful
    (inverts : ∀ cipher ∈ client.pathCipher, cipher.Inverts)
    (server : RemotePath → Except Error (List TreeEntry)) (dir : Path) :
    (∀ rel api target listing entry, rel ≠ [] →
      prefixedPath client dir = some (.ok api) →
      prefixedPath client (childPath dir rel) = some (.ok target) →
      server api = .ok listing → entry ∈ listing →
      entry.path = target.path →
      ∃ view, listTree client server dir = some (.ok view) ∧
        { entry with path := childPath dir rel } ∈ view) ∧
    ∀ view entry, listTree client server dir = some (.ok view) →
      entry ∈ view →
      ∃ api listing, prefixedPath client dir = some (.ok api) ∧
        server api = .ok listing ∧
        ∃ source ∈ listing, entry = { source with path := entry.path } ∧
          Shows client source.path entry.path ∧
          ((StrictlyBelow dir entry.path ∧
              StrictlyBelow api.path source.path) ∨
            (client.pathCipher = none ∧ client.pathPrefix = [] ∧ dir = [] ∧
              source.path = [] ∧ entry.path = [])) := by
  constructor
  · intro rel api target listing entry nonempty prefixed inside answered member
      same
    obtain ⟨below, shows⟩ := shown_of_listed client inverts nonempty prefixed
      inside
    refine ⟨viewListing client api listing, ?_, ?_⟩
    · simp [listTree, prefixed, answered, mapMissingRoot, bind, Except.bind]
    · apply (mem_viewListing client).mpr
      refine ⟨entry, mem_retainBelow.mpr ⟨member, Or.inr ?_⟩, rfl, ?_, ?_⟩
      · rwa [same]
      · rwa [same]
      · intro _
        unfold childPath
        split <;> simp [nonempty]
  · intro view entry listed member
    obtain ⟨api, entries, prefixed, mapped, rfl⟩ := listTree_ok client listed
    obtain ⟨source, retained, same, shows, _⟩ :=
      (mem_viewListing client).mp member
    obtain ⟨listedSource, place⟩ := mem_retainBelow.mp retained
    have answered : server api = .ok entries := by
      rcases mapMissingRoot_ok client mapped with answered | none
      · exact answered
      · rw [none] at listedSource
        cases listedSource
    refine ⟨api, entries, prefixed, answered, source, listedSource, same,
      shows, ?_⟩
    rcases place with root | below
    · obtain ⟨noCipher, noPrefix, atRoot⟩ := root_of_empty client prefixed root
      have path : source.path = entry.path := by
        unfold Shows at shows
        rw [noCipher] at shows
        rwa [joined_root client noPrefix] at shows
      by_cases empty : entry.path = []
      · exact Or.inr ⟨noCipher, noPrefix, atRoot, path.trans empty, empty⟩
      · left
        rw [atRoot, root, path]
        exact ⟨⟨entry.path, empty, rfl⟩, ⟨entry.path, empty, rfl⟩⟩
    · exact Or.inl ⟨below_of_shown client inverts prefixed below shows, below⟩

/-- A file of an encrypted mount below the prefix `p`. -/
theorem list_tree_faithful_of_backwards :
    ∃ target view,
      prefixedPath ⟨['p'], some backwards⟩ ['d', '/', 'f'] =
        some (.ok target) ∧
      listTree ⟨['p'], some backwards⟩
          (fun _ => .ok [⟨target.path, .file, none, none, none, none⟩])
          ['d'] = some (.ok view) ∧
      ⟨['d', '/', 'f'], .file, none, none, none, none⟩ ∈ view := by
  have accepted : ∀ path ∈ [['d'], ['d', '/', 'f']],
      (prefixedPath ⟨['p'], some backwards⟩ path).any Except.isOk = true := by
    decide +kernel
  have found : ∀ path ∈ [['d'], ['d', '/', 'f']], ∃ remote,
      prefixedPath ⟨['p'], some backwards⟩ path = some (.ok remote) := by
    intro path member
    obtain ⟨outcome, prefixed, ok⟩ :=
      (Option.any_eq_true _ _).mp (accepted path member)
    cases outcome with
    | error _ => cases ok
    | ok remote => exact ⟨remote, prefixed⟩
  obtain ⟨api, prefixed⟩ := found ['d'] (by simp)
  obtain ⟨target, inside⟩ := found ['d', '/', 'f'] (by simp)
  have inverts : ∀ cipher ∈ some backwards, cipher.Inverts := by
    intro cipher same
    rw [← Option.some.inj same]
    exact backwards_inverts
  obtain ⟨view, listed, shown⟩ := (list_tree_faithful ⟨['p'], some backwards⟩
    inverts (fun _ => .ok [⟨target.path, .file, none, none, none, none⟩])
      ['d']).1 ['f'] api target _ _ (by decide) prefixed inside rfl
        List.mem_cons_self rfl
  exact ⟨target, view, inside, listed, shown⟩

/-- In the root of a bucket an entry with the empty path is not filtered. -/
theorem list_tree_shows_empty_path :
    ¬ ∀ (client : HubApiClient)
      (server : RemotePath → Except Error (List TreeEntry)) (dir : Path)
      (view : List TreeEntry) (entry : TreeEntry),
      (∀ cipher ∈ client.pathCipher, cipher.Inverts) →
      listTree client server dir = some (.ok view) → entry ∈ view →
      StrictlyBelow dir entry.path := by
  intro strict
  obtain ⟨rel, nonempty, same⟩ := strict ⟨[], none⟩
    (fun _ => .ok [⟨[], .file, none, none, none, none⟩]) []
    [⟨[], .file, none, none, none, none⟩]
    ⟨[], .file, none, none, none, none⟩
    (by simp) (by decide) (by simp)
  exact nonempty same.symm

end HfMount.Hub
