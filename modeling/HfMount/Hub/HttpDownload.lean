import HfMount.Lib.TextSearch
import HfMount.Lib.Transition

/-!
# The cache of plain downloads

A file that is not in the content store is downloaded into one file, and its
ETag goes into a second one beside it.  The next download sends the ETag along,
and the answer 304 means that the first file is still the remote content.  The
two files are replaced one after the other, and an error of the second step is
ignored.
-/

namespace HfMount.Hub

open Text Transition

/-- An entity tag: no quotes and no blanks between its quotes. -/
structure ETag where
  weak : Bool
  tag : List Char
  plain : ∀ c ∈ tag, c ≠ '"' ∧ isWhitespace c = false

/-- The value of the header. -/
def ETag.text (etag : ETag) : List Char :=
  (if etag.weak then ['W', '/'] else []) ++ '"' :: (etag.tag ++ ['"'])

/-- `HeaderValue::to_str`: visible ASCII and tabs only. -/
def headerToStr (text : List Char) : Option (List Char) :=
  if text.all fun c => c = '\t' || (32 ≤ c.toNat && c.toNat < 127) then
    some text
  else none

/-- What the sidecar file holds after a download with this ETag. -/
def storedEtag (header : Option (List Char)) : Option (List Char) :=
  (header.bind headerToStr).map (trimMatches '"')

/-- The value of `If-None-Match`. -/
def ifNoneMatch (stored : List Char) : List Char :=
  '"' :: (trim stored ++ ['"'])

/-- The destination and its sidecar `.etag`. -/
structure Disk (α : Type) where
  dest : Option α
  sidecar : Option (List Char)

/-- How a call fails or is cancelled.  Nothing reads the temporary file that
the body goes to first. -/
inductive Stop where
  /-- No answer. -/
  | request
  /-- Anywhere up to the renaming. -/
  | transfer
  /-- Right after it. -/
  | renamed
  /-- The sidecar is not written or removed properly, which leaves something
  there; the error is ignored, unless the call is cancelled. -/
  | sidecar (left : Option (List Char)) (cancelled : Bool)
  deriving DecidableEq

variable {α : Type}

/-- A version of the remote file; ETags identify contents. -/
structure RemoteVersion (contents : ETag → α) where
  content : α
  etag : Option ETag
  identified : ∀ tag, etag = some tag → content = contents tag

/-- One call: what the remote has, whether looking for the destination or
reading the sidecar fails, and how far it gets. -/
structure Call (contents : ETag → α) where
  remote : RemoteVersion contents
  existsFails : Bool
  readFails : Bool
  stop : Option Stop

variable {contents : ETag → α}

def Call.etagHeader (call : Call contents) : Option (List Char) :=
  call.remote.etag.map (·.text)

/-- The ETag that is sent along. -/
def cachedEtag (disk : Disk α) (call : Call contents) : Option (List Char) :=
  if !call.existsFails && disk.dest.isSome && !call.readFails then
    disk.sidecar
  else none

/-- The remote answers 304 when the ETag that was sent is the current one. -/
def notModified (disk : Disk α) (call : Call contents) : Bool :=
  (cachedEtag disk call).any fun stored =>
    call.etagHeader = some (ifNoneMatch stored)

/-- `download_file_http`: the files afterwards, and whether it returns `Ok`. -/
def downloadFileHttp (disk : Disk α) (call : Call contents) : Disk α × Bool :=
  if call.stop = some .request then (disk, false)
  else if notModified disk call then (disk, true)
  else
    match call.stop with
    | some .request | some .transfer => (disk, false)
    | some .renamed =>
        ({ disk with dest := some call.remote.content }, false)
    | some (.sidecar left cancelled) =>
        ({ dest := some call.remote.content, sidecar := left }, !cancelled)
    | none =>
        ({ dest := some call.remote.content
           sidecar := storedEtag call.etagHeader }, true)

/-! ## Calls one after another -/

/-- The files, and the content that the remote had during the last call when
that returned `Ok`. -/
structure Downloads (α : Type) where
  disk : Disk α
  returned : Option α

namespace Downloads

def start : Downloads α :=
  { disk := { dest := none, sidecar := none }
    returned := none }

def step (state : Downloads α) (call : Call contents) : Option (Downloads α) :=
  let result := downloadFileHttp state.disk call
  some
    { disk := result.1
      returned := if result.2 then some call.remote.content else none }

/-- A call that returned `Ok` left the content that the remote had. -/
def Right (state : Downloads α) : Prop :=
  ∀ content ∈ state.returned, state.disk.dest = some content

/-- What is in the sidecar is not the ETag of another content. -/
def Harmless (contents : ETag → α) (sidecar : Option (List Char))
    (content : α) : Prop :=
  ∀ stored ∈ sidecar, ∀ etag : ETag, ifNoneMatch stored = etag.text →
    contents etag = content

/-- The two files belong together. -/
def Paired (contents : ETag → α) (disk : Disk α) : Prop :=
  ∀ content ∈ disk.dest, Harmless contents disk.sidecar content

/-- A call that replaces the content and then stops leaves no ETag of another
content beside it.  The ETag `W/""` is excluded: it is sent as `"W/"`. -/
def Careful (state : Downloads α) (call : Call contents) : Prop :=
  notModified state.disk call = true ∨
    match call.stop with
    | some .request | some .transfer => True
    | some .renamed =>
        Harmless contents state.disk.sidecar call.remote.content
    | some (.sidecar left _) => Harmless contents left call.remote.content
    | none => ∀ etag ∈ call.remote.etag, etag.weak = true → etag.tag ≠ []

/-! ## ETags in the sidecar -/

theorem trimMatches_quoted {tag : List Char} (plain : '"' ∉ tag) :
    trimMatches '"' ('"' :: (tag ++ ['"'])) = tag := by
  have none : ∀ c ∈ tag, (c == '"') = false := by
    intro c member
    simp only [beq_eq_false_iff_ne]
    rintro rfl
    exact plain member
  cases tag with
  | nil => rfl
  | cons c tag =>
      rw [trimMatches, List.dropWhile_cons_of_pos (by rfl), List.cons_append,
        List.dropWhile_cons_of_neg (by simpa using none c List.mem_cons_self),
        ← List.cons_append, List.rdropWhile_concat_pos _ _ _ (by rfl),
        rdropWhile_eq_self none]

theorem trimMatches_weak {tag : List Char} (plain : '"' ∉ tag)
    (nonempty : tag ≠ []) :
    trimMatches '"' ('W' :: '/' :: '"' :: (tag ++ ['"'])) =
      'W' :: '/' :: '"' :: tag := by
  obtain ⟨front, c, rfl⟩ :=
    (List.eq_nil_or_concat' tag).resolve_left nonempty
  have last : ¬ (c == '"') = true := by
    intro same
    rw [beq_iff_eq] at same
    exact plain (by simp [same])
  have split : 'W' :: '/' :: '"' :: (front ++ [c] ++ ['"']) =
      ('W' :: '/' :: '"' :: front ++ [c]) ++ ['"'] := by simp
  rw [trimMatches, List.dropWhile_cons_of_neg (by decide), split,
    List.rdropWhile_concat_pos _ _ _ (by rfl),
    List.rdropWhile_concat_neg (· == '"') _ _ last]
  simp

/-- A stored ETag is sent as itself, or as the ETag of nothing. -/
theorem etag_eq {etag other : ETag} {stored : List Char}
    (usual : etag.weak = true → etag.tag ≠ [])
    (written : storedEtag (some etag.text) = some stored)
    (sent : ifNoneMatch stored = other.text) : other = etag := by
  obtain ⟨weak, tag, plain⟩ := etag
  obtain ⟨otherWeak, otherTag, otherPlain⟩ := other
  have noQuote : '"' ∉ tag := fun member => (plain _ member).1 rfl
  have trimmed : trim tag = tag :=
    trim_eq_self fun c member => (plain c member).2
  obtain ⟨text, readable, rfl⟩ := Option.map_eq_some_iff.mp written
  rw [Option.bind_some, headerToStr, Option.ite_none_right_eq_some] at readable
  obtain ⟨-, readable⟩ := readable
  obtain rfl := Option.some.inj readable
  cases weak with
  | false =>
      simp only [ETag.text, Bool.false_eq_true, if_false, List.nil_append,
        trimMatches_quoted noQuote, ifNoneMatch, trimmed] at sent
      cases otherWeak with
      | true => simp at sent
      | false =>
          simp only [Bool.false_eq_true, if_false, List.nil_append,
            List.cons.injEq, true_and] at sent
          obtain rfl := List.append_cancel_right sent
          rfl
  | true =>
      -- A weak ETag is sent with one quote too many.
      have nonempty : tag ≠ [] := usual rfl
      have visible : ∀ c ∈ 'W' :: '/' :: '"' :: tag,
          isWhitespace c = false := by
        intro c member
        simp only [List.mem_cons] at member
        rcases member with rfl | rfl | rfl | member
        · rfl
        · rfl
        · rfl
        · exact (plain c member).2
      have trimmedWeak := trimMatches_weak noQuote nonempty
      simp only [ETag.text, if_true, List.cons_append, List.nil_append,
        trimmedWeak, ifNoneMatch, trim_eq_self visible] at sent
      cases otherWeak with
      | true => simp at sent
      | false =>
          simp only [Bool.false_eq_true, if_false, List.nil_append,
            List.cons.injEq, true_and] at sent
          have quoted : '"' ∈ otherTag := by
            have same : ('W' :: '/' :: '"' :: tag) ++ ['"'] =
                otherTag ++ ['"'] := by simpa using sent
            simp [← List.append_cancel_right same]
          exact absurd rfl (otherPlain _ quoted).1

theorem harmless_stored (remote : RemoteVersion contents)
    (usual : ∀ etag ∈ remote.etag, etag.weak = true → etag.tag ≠ []) :
    Harmless contents (storedEtag (remote.etag.map (·.text)))
      remote.content := by
  intro stored written other sent
  cases present : remote.etag with
  | none =>
      rw [present] at written
      cases written
  | some etag =>
      rw [present] at written
      rw [etag_eq (usual etag present) written sent]
      exact (remote.identified etag present).symm

/-! ## Runs of calls -/

variable {state next : Downloads α} {call : Call contents}

/-- A 304 stands for the content on disk. -/
theorem Paired.notModified {disk : Disk α} (paired : Paired contents disk)
    (answered : notModified disk call = true) :
    disk.dest = some call.remote.content := by
  obtain ⟨stored, cached, same⟩ := (Option.any_eq_true _ _).mp answered
  unfold cachedEtag at cached
  split at cached <;> rename_i tests
  · simp only [Bool.and_eq_true] at tests
    obtain ⟨content, present⟩ := Option.isSome_iff_exists.mp tests.1.2
    obtain ⟨etag, current, text⟩ :=
      Option.map_eq_some_iff.mp (of_decide_eq_true same)
    rw [present, call.remote.identified etag current,
      paired content present stored cached etag text.symm]
  · cases cached

/-- The invariant of careful runs. -/
structure Sound (contents : ETag → α) (state : Downloads α) : Prop where
  paired : Paired contents state.disk
  right : state.Right

theorem sound_start : Sound contents (start : Downloads α) := by
  constructor
  · intro content present
    cases present
  · intro content returned
    cases returned

theorem paired_replaced {sidecar : Option (List Char)} {content : α}
    (harmless : Harmless contents sidecar content) :
    Paired contents { dest := some content, sidecar } := by
  intro other present
  obtain rfl := Option.some.inj present
  exact harmless

/-- One call keeps the files together and is right when it returns `Ok`. -/
theorem Paired.download (paired : Paired contents state.disk)
    (careful : Careful state call) :
    Paired contents (downloadFileHttp state.disk call).1 ∧
      ((downloadFileHttp state.disk call).2 = true →
        (downloadFileHttp state.disk call).1.dest =
          some call.remote.content) := by
  unfold downloadFileHttp
  split
  · exact ⟨paired, fun ok => by cases ok⟩
  split <;> rename_i answer
  · exact ⟨paired, fun _ => paired.notModified answer⟩
  have leaves := careful.resolve_left answer
  cases stop : call.stop with
  | none =>
      rw [stop] at leaves
      exact ⟨paired_replaced (harmless_stored call.remote leaves),
        fun _ => rfl⟩
  | some stopped =>
      rw [stop] at leaves
      cases stopped with
      | request => exact ⟨paired, fun ok => by cases ok⟩
      | transfer => exact ⟨paired, fun ok => by cases ok⟩
      | renamed => exact ⟨paired_replaced leaves, fun ok => by cases ok⟩
      | sidecar left cancelled => exact ⟨paired_replaced leaves, fun _ => rfl⟩

theorem Sound.step (sound : Sound contents state)
    (careful : Careful state call) (stepped : step state call = some next) :
    Sound contents next := by
  obtain rfl := Option.some.inj stepped
  obtain ⟨paired, right⟩ := sound.paired.download careful
  refine ⟨paired, ?_⟩
  intro content returned
  dsimp only at returned ⊢
  split at returned <;> rename_i ok
  · obtain rfl := Option.some.inj returned
    exact right ok
  · cases returned

/-- In every run of careful calls, a call that returns `Ok` has left what the
remote had. -/
theorem right_of_careful {calls : List (Call contents)} {final : Downloads α}
    (careful : AllSteps step Careful start calls)
    (run : exec step start calls = some final) : final.Right := by
  have sound : Sound contents final :=
    exec_invariant
      (fun _ _ _ sound careful stepped => sound.step careful stepped)
      sound_start careful run
  exact sound.right

/-! ## Files that do not belong together -/

def tagOf (c : Char) (plain : c ≠ '"' ∧ isWhitespace c = false) : ETag :=
  { weak := false
    tag := [c]
    plain := by
      intro other member
      rw [List.mem_singleton.mp member]
      exact plain }

/-- A call while the remote has the content that is its own tag. -/
def callOf (etag : ETag) (stop : Option Stop) : Call ETag.tag :=
  { remote :=
      { content := etag.tag
        etag := some etag
        identified := fun tag same => by
          obtain rfl := Option.some.inj same
          rfl }
    existsFails := false
    readFails := false
    stop }

def tagA : ETag := tagOf 'a' (by decide)

def tagB : ETag := tagOf 'b' (by decide)

/-- `a` is downloaded, `b` replaces it without a sidecar and is downloaded
again, and then `a` is cut off in the middle. -/
def changedRemote : List (Call ETag.tag) :=
  [callOf tagA none, callOf tagB (some (.sidecar none false)),
    callOf tagB none, callOf tagA (some .transfer)]

theorem right_of_careful_changedRemote :
    ((exec step start changedRemote).get (by decide)).Right := by
  have usual : ∀ etag : ETag, etag.weak = false →
      ∀ other ∈ (callOf etag none).remote.etag,
        other.weak = true → other.tag ≠ [] := by
    intro etag strong other same weak
    obtain rfl := Option.some.inj same
    rw [strong] at weak
    cases weak
  have careful : AllSteps step Careful start changedRemote := by
    refine ⟨Or.inr (usual tagA rfl), fun _ _ => ⟨Or.inr ?_, fun _ _ =>
      ⟨Or.inr (usual tagB rfl), fun _ _ => ⟨Or.inr trivial, fun _ _ =>
        trivial⟩⟩⟩⟩
    intro stored left
    cases left
  exact right_of_careful careful (Option.some_get _).symm

/-- The sidecar of `b` cannot be written; when the remote returns to `a`, the
ETag that stayed there is answered with 304, and `b` is served as `a`. -/
theorem download_not_right : ¬ ∀ (calls : List (Call ETag.tag))
    (final : Downloads (List Char)),
      exec step start calls = some final → final.Right := by
  intro claim
  have right := claim
    [callOf tagA none, callOf tagB (some (.sidecar (some ['a']) false)),
      callOf tagA none] _
    (Option.some_get (by decide)).symm
  have served := right ['a'] (by decide)
  revert served
  decide

end Downloads

end HfMount.Hub
