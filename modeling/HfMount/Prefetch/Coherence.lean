import HfMount.Lib.Slice
import HfMount.Lib.Transition
import HfMount.Prefetch.Buffer

/-!
# Prefetch buffer coherence

Both caches of a handle are windows of the remote content: the unconsumed
chunks begin at `bufStart` and the seek window at `seekStart`.  The only
operation that can break this is `drainToSeek` when it fills an empty seek
window without setting its start; `SeekAnchored` is the condition under which
it does not.
-/

namespace HfMount.Prefetch

open Slice Transition

/-! ## Chunk lists as flat bytes -/

theorem takeFromChunks_eq (chunks : List Bytes) (remaining : Nat) :
    takeFromChunks chunks remaining = chunks.flatten.take remaining := by
  induction chunks generalizing remaining with
  | nil => simp [takeFromChunks]
  | cons next rest ih =>
      rw [List.flatten_cons, List.take_append, takeFromChunks]
      by_cases enough : remaining ≤ next.length
      · simp [Nat.min_eq_left enough, Nat.sub_eq_zero_of_le enough]
      · have short : next.length ≤ remaining := by omega
        have nonzero : remaining - next.length ≠ 0 := by omega
        simp [Nat.min_eq_right short, nonzero, ih, List.take_of_length_le short]

theorem readChunkRangeFrom_eq (chunks : List Bytes) (start skip count : Nat)
    (front : start ≤ (chunks.headD []).length) :
    readChunkRangeFrom chunks start skip count =
      ((chunks.flatten.drop start).drop skip).take count := by
  induction chunks generalizing start skip with
  | nil => simp [readChunkRangeFrom]
  | cons chunk rest ih =>
      have front : start ≤ chunk.length := by simpa using front
      rw [readChunkRangeFrom, List.flatten_cons, List.drop_drop,
        List.drop_append]
      by_cases inside : skip < chunk.length - start
      · have restKept : start + skip - chunk.length = 0 := by omega
        simp only [inside, if_true, restKept, List.drop_zero]
        split <;> rename_i avail
        · rw [List.take_append_of_le_length (by simpa using avail)]
        · rw [List.take_append, takeFromChunks_eq]
          have whole : (chunk.drop (start + skip)).length ≤ count := by
            simp only [List.length_drop]
            omega
          rw [List.take_of_length_le whole, List.length_drop]
      · have beyond : chunk.length ≤ start + skip := by omega
        have offset :
            start + skip - chunk.length = skip - (chunk.length - start) := by
          omega
        simp only [inside, if_false, List.drop_eq_nil_of_le beyond,
          List.nil_append]
        rw [ih 0 _ (Nat.zero_le _), List.drop_zero, offset]

theorem readChunkRange_eq {chunks : List Bytes} {frontOffset : Nat}
    (front : frontOffset ≤ (chunks.headD []).length) (skip count : Nat) :
    readChunkRange chunks frontOffset skip count =
      ((chunks.flatten.drop frontOffset).drop skip).take count := by
  unfold readChunkRange
  split <;> rename_i zero
  · simp [zero]
  · exact readChunkRangeFrom_eq chunks frontOffset skip count front

/-- Popping consumed chunks drops that many bytes of the flat content and
keeps the front offset inside the first chunk. -/
theorem popConsumed_spec (chunks : List Bytes)
    (frontOffset remaining : Nat)
    (front : frontOffset ≤ (chunks.headD []).length)
    (available : remaining ≤ (chunks.flatten.drop frontOffset).length) :
    ∃ left offset,
      popConsumed chunks frontOffset
          (chunks.flatten.drop frontOffset).length remaining =
        (left, offset, (chunks.flatten.drop frontOffset).length - remaining) ∧
      left.flatten.drop offset =
        (chunks.flatten.drop frontOffset).drop remaining ∧
      offset ≤ (left.headD []).length := by
  induction chunks generalizing frontOffset remaining with
  | nil =>
      obtain rfl : remaining = 0 := by simpa using available
      exact ⟨[], frontOffset, by simp [popConsumed], by simp, front⟩
  | cons chunk rest ih =>
      have front : frontOffset ≤ chunk.length := by simpa using front
      have flat : ((chunk :: rest).flatten.drop frontOffset) =
          chunk.drop frontOffset ++ rest.flatten := by
        rw [List.flatten_cons, List.drop_append_of_le_length front]
      rw [flat] at available ⊢
      unfold popConsumed
      by_cases done : remaining = 0
      · refine ⟨chunk :: rest, frontOffset, by simp [done], ?_, by simpa using front⟩
        simp [done, List.drop_append_of_le_length front]
      by_cases pop : chunk.length - frontOffset ≤ remaining
      · have restAvailable :
            remaining - (chunk.length - frontOffset) ≤
              (rest.flatten.drop 0).length := by
          simp only [List.length_append, List.length_drop] at available
          simp only [List.drop_zero]
          omega
        obtain ⟨left, offset, popped, content, inside⟩ :=
          ih 0 (remaining - (chunk.length - frontOffset)) (Nat.zero_le _)
            restAvailable
        refine ⟨left, offset, ?_, ?_, inside⟩
        · simp only [List.drop_zero] at popped
          have length : (chunk.drop frontOffset ++ rest.flatten).length -
              (chunk.length - frontOffset) = rest.flatten.length := by
            simp only [List.length_append, List.length_drop]
            omega
          have remainder : rest.flatten.length -
                (remaining - (chunk.length - frontOffset)) =
              (chunk.drop frontOffset ++ rest.flatten).length - remaining := by
            simp only [List.length_append, List.length_drop]
            omega
          simp only [done, pop, if_true, if_false, length]
          rw [popped, remainder]
        · have whole : (chunk.drop frontOffset).length ≤ remaining := by
            simpa only [List.length_drop] using pop
          rw [content, List.drop_zero, List.drop_append,
            List.drop_eq_nil_of_le whole, List.nil_append, List.length_drop]
      · refine ⟨chunk :: rest, frontOffset + remaining, ?_, ?_, ?_⟩
        · simp [done, pop]
        · rw [List.flatten_cons, List.drop_append_of_le_length (by omega),
            List.drop_append_of_le_length
              (by simp only [List.length_drop]; omega),
            List.drop_drop]
        · simp only [List.headD_cons]
          omega

namespace PrefetchState

variable {σ : Type} {content : Bytes}

/-- The unconsumed bytes of the forward buffer. -/
def forwardBytes (ps : PrefetchState σ) : Bytes :=
  ps.chunks.flatten.drop ps.chunksFrontOffset

/-- Both caches are windows of the file content. -/
structure Coherent (content : Bytes) (ps : PrefetchState σ) : Prop where
  size : ps.fileSize = content.length
  front : ps.chunksFrontOffset ≤ (ps.chunks.headD []).length
  length : ps.chunksLen = ps.forwardBytes.length
  forward : IsWindow content ps.bufStart ps.forwardBytes
  seek : IsWindow content ps.seekStart ps.seekData

/-- The seek window may be filled from the buffer: in every case in which
`drainToSeek` appends to an empty window without moving its start, the start
is already right. -/
def SeekAnchored (ps : PrefetchState σ) : Prop :=
  ps.forwardOnly = true ∨ ps.seekData ≠ [] ∨ seekWindow < ps.chunksLen ∨
    ps.seekStart = ps.bufStart

instance (ps : PrefetchState σ) : Decidable ps.SeekAnchored := by
  unfold SeekAnchored
  infer_instance

/-- The prefetch state at the first fetch of a read at `cursor` drains nothing
or drains into an anchored seek window. -/
def DrainAnchored (ps : PrefetchState σ) (cursor : Nat) : Prop :=
  ps.chunksLen = 0 ∨ cursor < ps.bufStart ∨ ps.SeekAnchored

instance (ps : PrefetchState σ) (cursor : Nat) :
    Decidable (ps.DrainAnchored cursor) := by
  unfold DrainAnchored
  infer_instance

theorem coherent_new (xetHash : String) (content : Bytes)
    (forwardOnly : Bool) :
    (new xetHash content.length forwardOnly : PrefetchState σ).Coherent
      content := by
  constructor <;> simp [new, forwardBytes]

theorem readChunkRange_window {ps : PrefetchState σ}
    (coherent : ps.Coherent content) (skip count : Nat) :
    IsWindow content (ps.bufStart + skip)
      (readChunkRange ps.chunks ps.chunksFrontOffset skip count) := by
  rw [readChunkRange_eq coherent.front]
  exact (coherent.forward.drop skip).take count

theorem trimSeek_window {ps : PrefetchState σ}
    (seek : IsWindow content ps.seekStart ps.seekData) :
    IsWindow content ps.trimSeek.seekStart ps.trimSeek.seekData := by
  unfold trimSeek
  split
  · have trimmed := seek.drop (ps.seekData.length - seekWindow)
    dsimp only
    exact trimmed
  · exact seek

/-- Two states that differ at most in their seek window. -/
structure SameBuffer (left right : PrefetchState σ) : Prop where
  fileSize : left.fileSize = right.fileSize
  chunks : left.chunks = right.chunks
  chunksLen : left.chunksLen = right.chunksLen
  frontOffset : left.chunksFrontOffset = right.chunksFrontOffset
  bufStart : left.bufStart = right.bufStart

theorem trimSeek_sameBuffer (ps : PrefetchState σ) :
    ps.trimSeek.SameBuffer ps := by
  unfold trimSeek
  split <;> exact ⟨rfl, rfl, rfl, rfl, rfl⟩

theorem fillSeek_sameBuffer (ps : PrefetchState σ) (toMove : Nat) :
    (ps.fillSeek toMove).SameBuffer ps := by
  unfold fillSeek
  split
  · exact ⟨rfl, rfl, rfl, rfl, rfl⟩
  split
  · obtain ⟨fileSize, chunks, chunksLen, frontOffset, bufStart⟩ :=
      (ps.copyChunksToSeek 0 toMove).trimSeek_sameBuffer
    exact ⟨fileSize, chunks, chunksLen, frontOffset, bufStart⟩
  · exact ⟨rfl, rfl, rfl, rfl, rfl⟩

theorem fillSeek_window {ps : PrefetchState σ}
    (coherent : ps.Coherent content) {toMove : Nat}
    (anchored : ps.forwardOnly = true ∨ ps.seekData ≠ [] ∨
      seekWindow < toMove ∨ ps.seekStart = ps.bufStart) :
    IsWindow content (ps.fillSeek toMove).seekStart
      (ps.fillSeek toMove).seekData := by
  unfold fillSeek
  split <;> rename_i mode
  · exact coherent.seek
  split <;> rename_i append
  · simp only [seekContiguous, Bool.and_eq_true, Bool.or_eq_true,
      List.isEmpty_iff, beq_iff_eq, decide_eq_true_eq] at append
    obtain ⟨contiguous, small⟩ := append
    -- The appended bytes continue the window, or the empty window already
    -- starts where the buffer does.
    have meets : ps.seekStart + ps.seekData.length = ps.bufStart := by
      rcases contiguous with empty | meets
      · rcases anchored with forwardOnly | nonempty | large | start
        · exact absurd forwardOnly mode
        · exact absurd empty nonempty
        · omega
        · simpa [empty] using start
      · exact meets
    have appended := readChunkRange_window coherent 0 toMove
    rw [Nat.add_zero, ← meets] at appended
    exact trimSeek_window (coherent.seek.append appended)
  · have kept := readChunkRange_window coherent
      (toMove - min toMove seekWindow) (min toMove seekWindow)
    simpa only [copyChunksToSeek, restartSeek, List.nil_append] using kept

/-- Popping leaves the rest of the buffer, measured as before. -/
theorem popFront_spec {ps : PrefetchState σ} {toMove : Nat}
    (front : ps.chunksFrontOffset ≤ (ps.chunks.headD []).length)
    (length : ps.chunksLen = ps.forwardBytes.length)
    (available : toMove ≤ ps.chunksLen) :
    (ps.popFront toMove).chunksFrontOffset ≤
        ((ps.popFront toMove).chunks.headD []).length ∧
      (ps.popFront toMove).forwardBytes = ps.forwardBytes.drop toMove ∧
      (ps.popFront toMove).chunksLen = ps.chunksLen - toMove ∧
      (ps.popFront toMove).chunksLen =
        (ps.popFront toMove).forwardBytes.length := by
  rw [length] at available
  obtain ⟨left, offset, popped, rest, inside⟩ :=
    popConsumed_spec ps.chunks ps.chunksFrontOffset toMove front available
  have popped : popConsumed ps.chunks ps.chunksFrontOffset ps.chunksLen
      toMove = (left, offset, ps.forwardBytes.length - toMove) := by
    rw [length]
    exact popped
  have bytes : (ps.popFront toMove).forwardBytes =
      ps.forwardBytes.drop toMove := by
    simpa only [forwardBytes, popFront, popped] using rest
  have kept : (ps.popFront toMove).chunksLen =
      ps.forwardBytes.length - toMove := by
    simp only [popFront, popped]
  refine ⟨?_, bytes, ?_, ?_⟩
  · simpa only [popFront, popped] using inside
  · rw [kept, length]
  · rw [bytes, List.length_drop, kept]

theorem popFront_coherent {ps : PrefetchState σ}
    (coherent : ps.Coherent content) {toMove : Nat}
    (available : toMove ≤ ps.chunksLen) :
    (ps.popFront toMove).Coherent content := by
  obtain ⟨inside, bytes, _, length⟩ :=
    popFront_spec coherent.front coherent.length available
  constructor
  · exact coherent.size
  · exact inside
  · exact length
  · rw [bytes]
    exact coherent.forward.drop toMove
  · exact coherent.seek

/-- Draining keeps both caches coherent when the seek window is anchored. -/
theorem drainToSeek_coherent {ps : PrefetchState σ}
    (coherent : ps.Coherent content) {consumed : Nat}
    (anchored : consumed = 0 ∨ ps.forwardOnly = true ∨ ps.seekData ≠ [] ∨
      seekWindow < min consumed ps.chunksLen ∨ ps.seekStart = ps.bufStart) :
    (ps.drainToSeek consumed).Coherent content := by
  unfold drainToSeek
  split <;> rename_i nothing
  · exact coherent
  have seek := fillSeek_window coherent (anchored.resolve_left nothing)
  have same := ps.fillSeek_sameBuffer (min consumed ps.chunksLen)
  have filled :
      (ps.fillSeek (min consumed ps.chunksLen)).Coherent content := by
    constructor
    · exact same.fileSize.trans coherent.size
    · simpa only [same.frontOffset, same.chunks] using coherent.front
    · simpa only [forwardBytes, same.chunksLen, same.frontOffset, same.chunks]
        using coherent.length
    · simpa only [forwardBytes, same.bufStart, same.frontOffset, same.chunks]
        using coherent.forward
    · exact seek
  apply popFront_coherent filled
  rw [same.chunksLen]
  exact Nat.min_le_right _ _

theorem drainConsumed_coherent {ps : PrefetchState σ}
    (coherent : ps.Coherent content) {cursor : Nat}
    (anchored : ps.DrainAnchored cursor) :
    (ps.drainConsumed cursor).Coherent content := by
  unfold drainConsumed
  split <;> rename_i buffered
  · apply drainToSeek_coherent coherent
    rcases anchored with empty | before | anchored
    · omega
    · left
      simp [Nat.not_le.mpr before]
    · split
      · rw [Nat.min_self]
        exact Or.inr anchored
      · exact Or.inl rfl
  · exact coherent

theorem prepareFetch_coherent {ps : PrefetchState σ}
    (coherent : ps.Coherent content) {cursor : Nat} (size : Nat)
    (anchored : ps.DrainAnchored cursor) :
    (ps.prepareFetch cursor size).2.Coherent content := by
  have drained := drainConsumed_coherent coherent anchored
  exact ⟨drained.size, drained.front, drained.length, drained.forward,
    drained.seek⟩

theorem storeFetched_coherent {ps : PrefetchState σ}
    (coherent : ps.Coherent content) {cursor : Nat} {chunks : List Bytes}
    (delivered : IsWindow content cursor chunks.flatten) :
    (ps.storeFetched cursor chunks chunks.flatten.length).Coherent content := by
  refine ⟨coherent.size, Nat.zero_le _, ?_, ?_, coherent.seek⟩
  · simp [storeFetched, forwardBytes]
  · simpa [storeFetched, forwardBytes] using delivered

/-- What `tryServeForward` returns is the content at the requested offset, and
the state stays coherent. -/
theorem tryServeForward_spec {ps : PrefetchState σ}
    (coherent : ps.Coherent content) (offset size : Nat) :
    (ps.tryServeForward offset size).2.Coherent content ∧
      ∀ data, (ps.tryServeForward offset size).1 = some data →
        IsWindow content offset data := by
  unfold tryServeForward
  split
  · exact ⟨coherent, by simp⟩
  split <;> rename_i outside
  · exact ⟨coherent, by simp⟩
  have served := readChunkRange_window coherent (offset - ps.bufStart)
    (min size (ps.chunksLen - (offset - ps.bufStart)))
  have position : ps.bufStart + (offset - ps.bufStart) = offset := by omega
  rw [position] at served
  dsimp only
  split <;> rename_i mode
  · simp only [Bool.and_eq_true, decide_eq_true_eq] at mode
    refine ⟨drainToSeek_coherent coherent (Or.inr (Or.inl mode.1)), ?_⟩
    rintro data ⟨⟩
    exact served
  · refine ⟨coherent, ?_⟩
    rintro data ⟨⟩
    exact served

theorem tryServeSeek_window {ps : PrefetchState σ}
    (coherent : ps.Coherent content) {offset size : Nat} {data : Bytes}
    (hit : ps.tryServeSeek offset size = some data) :
    IsWindow content offset data := by
  unfold tryServeSeek at hit
  split at hit
  · cases hit
  split at hit <;> rename_i inside
  · obtain rfl := Option.some.inj hit
    have served := (coherent.seek.drop (offset - ps.seekStart)).take
      (min size (ps.seekData.length - (offset - ps.seekStart)))
    have position : ps.seekStart + (offset - ps.seekStart) = offset := by omega
    rwa [position] at served
  · cases hit

end PrefetchState

/-! ## Runs of reads -/

namespace Reader

variable {σ : Type} {content : Bytes}

/-- What the download layer owes the read loop: a non-empty run of chunks with
the bytes of the file from the requested cursor on. -/
def Delivers (content : Bytes) (reader : Reader σ) : ReadEvent σ → Prop
  | .fetched chunks _ =>
      ∀ request, reader.current = some request →
        chunks.flatten ≠ [] ∧ IsWindow content request.cursor chunks.flatten
  | _ => True

/-- No fetch drains a small buffer into an empty seek window that starts
elsewhere. -/
def FetchAnchored (reader : Reader σ) : ReadEvent σ → Prop
  | .read _ _ => True
  | .fetched _ _ | .fetchFailed _ =>
      ∀ request, reader.current = some request →
        reader.prefetch.DrainAnchored request.cursor

instance (content : Bytes) (reader : Reader σ) (event : ReadEvent σ) :
    Decidable (reader.Delivers content event) := by
  cases event <;> unfold Delivers <;> infer_instance

instance (reader : Reader σ) (event : ReadEvent σ) :
    Decidable (reader.FetchAnchored event) := by
  cases event <;> unfold FetchAnchored <;> infer_instance

/-- Everything that was served or answered so far is the content at its
offset. -/
def Correct (content : Bytes) (reader : Reader σ) : Prop :=
  (∀ offset data, (offset, data) ∈ reader.served →
    IsWindow content offset data) ∧
  ∀ offset data eof, (offset, data, eof) ∈ reader.answers →
    IsWindow content offset data

/-- The invariant of the read loop: the caches are coherent, and so is the
response that is being assembled. -/
structure Sound (content : Bytes) (reader : Reader σ) : Prop where
  prefetch : reader.prefetch.Coherent content
  assembled : ∀ request, reader.current = some request →
    IsWindow content request.offset request.response ∧
      request.cursor = request.offset + request.response.length
  correct : reader.Correct content

theorem sound_start (xetHash : String) (content : Bytes)
    (forwardOnly : Bool) :
    (start xetHash content.length forwardOnly : Reader σ).Sound content := by
  refine ⟨PrefetchState.coherent_new xetHash content forwardOnly, ?_, ?_⟩
  · simp [start]
  · simp [Correct, start]

theorem continueWith_sound {reader : Reader σ} {request : ReadRequest}
    (prefetch : reader.prefetch.Coherent content)
    (correct : reader.Correct content)
    (response : IsWindow content request.offset request.response)
    (cursor : request.cursor = request.offset + request.response.length) :
    (reader.continueWith request).Sound content := by
  unfold continueWith
  split
  · refine ⟨prefetch, ?_, correct⟩
    rintro current ⟨⟩
    exact ⟨response, cursor⟩
  · refine ⟨prefetch, by simp, correct.1, ?_⟩
    intro offset data eof member
    rcases List.mem_append.mp member with earlier | last
    · exact correct.2 offset data eof earlier
    · simp only [List.mem_singleton, Prod.mk.injEq] at last
      obtain ⟨rfl, rfl, _⟩ := last
      exact response

theorem accept_sound {reader : Reader σ} {request : ReadRequest}
    {data : Bytes} (prefetch : reader.prefetch.Coherent content)
    (correct : reader.Correct content)
    (response : IsWindow content request.offset request.response)
    (cursor : request.cursor = request.offset + request.response.length)
    (served : IsWindow content request.cursor data) :
    (reader.accept request data).Sound content := by
  apply continueWith_sound
  · exact prefetch
  · refine ⟨?_, correct.2⟩
    intro offset bytes member
    rcases List.mem_append.mp member with earlier | last
    · exact correct.1 offset bytes earlier
    · simp only [List.mem_singleton, Prod.mk.injEq] at last
      obtain ⟨rfl, rfl⟩ := last
      exact served
  · exact response.append (cursor ▸ served)
  · simp only [List.length_append]
    omega

theorem beginRead_sound {reader : Reader σ} (sound : reader.Sound content)
    (offset size : Nat) : (reader.beginRead offset size).Sound content := by
  obtain ⟨forward, forwardServed⟩ :=
    PrefetchState.tryServeForward_spec sound.prefetch offset size
  unfold beginRead
  split <;> rename_i prefetch result <;> rw [result] at forward forwardServed
  · exact accept_sound forward sound.correct (isWindow_nil _ _) (by simp)
      (forwardServed _ rfl)
  · split <;> rename_i seekResult
    · exact accept_sound forward sound.correct (isWindow_nil _ _) (by simp)
        (PrefetchState.tryServeSeek_window forward seekResult)
    · exact continueWith_sound forward sound.correct (isWindow_nil _ _)
        (by simp)

theorem absorb_sound {reader : Reader σ} {request : ReadRequest}
    (sound : reader.Sound content)
    (current : reader.current = some request) {chunks : List Bytes}
    (stream : Option σ)
    (delivered : IsWindow content request.cursor chunks.flatten)
    (anchored : reader.prefetch.DrainAnchored request.cursor) :
    (reader.absorb request chunks stream).Sound content := by
  obtain ⟨response, cursor⟩ := sound.assembled request current
  have planned := PrefetchState.prepareFetch_coherent sound.prefetch
    (request.toRead - request.response.length) anchored
  have streamed :
      ({ (reader.prefetch.prepareFetch request.cursor
            (request.toRead - request.response.length)).2 with
          stream } : PrefetchState σ).Coherent content :=
    ⟨planned.size, planned.front, planned.length, planned.forward,
      planned.seek⟩
  have stored := PrefetchState.storeFetched_coherent streamed delivered
  obtain ⟨forward, forwardServed⟩ := PrefetchState.tryServeForward_spec stored
    request.cursor (request.toRead - request.response.length)
  unfold absorb
  dsimp only
  split <;> rename_i prefetch result <;> rw [result] at forward forwardServed
  · exact accept_sound forward sound.correct response cursor
      (forwardServed _ rfl)
  · exact continueWith_sound forward sound.correct response cursor

theorem step_sound (reader : Reader σ) (event : ReadEvent σ)
    (next : Reader σ) (sound : reader.Sound content)
    (good : reader.Delivers content event ∧ reader.FetchAnchored event)
    (stepped : reader.step event = some next) : next.Sound content := by
  cases event with
  | read offset size =>
      simp only [step] at stepped
      cases idle : reader.current with
      | some request => simp [idle] at stepped
      | none =>
          simp only [idle] at stepped
          split at stepped <;> obtain rfl := Option.some.inj stepped
          · refine ⟨sound.prefetch, by simp, sound.correct.1, ?_⟩
            intro at' data eof member
            rcases List.mem_append.mp member with earlier | last
            · exact sound.correct.2 at' data eof earlier
            · simp only [List.mem_singleton, Prod.mk.injEq] at last
              obtain ⟨_, rfl, _⟩ := last
              exact isWindow_nil _ _
          · exact beginRead_sound sound offset size
  | fetched chunks stream =>
      simp only [step, Option.map_eq_some_iff] at stepped
      obtain ⟨request, current, rfl⟩ := stepped
      exact absorb_sound sound current stream (good.1 request current).2
        (good.2 request current)
  | fetchFailed stream =>
      simp only [step, Option.map_eq_some_iff] at stepped
      obtain ⟨request, current, rfl⟩ := stepped
      have planned := PrefetchState.prepareFetch_coherent sound.prefetch
        (request.toRead - request.response.length) (good.2 request current)
      refine ⟨⟨planned.size, planned.front, planned.length, planned.forward,
        planned.seek⟩, by simp, sound.correct⟩

/-- In every run of reads whose fetches deliver the file and never drain a
small buffer into an unanchored empty seek window, every byte served or
answered is the byte of the file at its position. -/
theorem reads_correct_of_anchored (xetHash : String) (content : Bytes)
    (forwardOnly : Bool) (events : List (ReadEvent σ)) (final : Reader σ)
    (run : exec step (start xetHash content.length forwardOnly) events =
      some final)
    (good : AllSteps step
      (fun reader event =>
        reader.Delivers content event ∧ reader.FetchAnchored event)
      (start xetHash content.length forwardOnly) events) :
    final.Correct content :=
  (exec_invariant step_sound (sound_start xetHash content forwardOnly) good
    run).correct

/-- Eight bytes, read at 4, at 0 and at 1: the third read drains the byte at 0
into an empty seek window that starts there. -/
def anchoredReads : List (ReadEvent Unit) :=
  [.read 4 4, .fetched [[4, 5], [6, 7]] none, .read 0 1,
    .fetched [[0]] none, .read 1 2, .fetched [[1], [2, 3, 4, 5, 6, 7]] none,
    .read 0 1]

theorem reads_correct_of_anchored_eight_bytes :
    ((exec step (start "a" 8 false) anchoredReads).get (by decide)).Correct
      [0, 1, 2, 3, 4, 5, 6, 7] :=
  reads_correct_of_anchored "a" [0, 1, 2, 3, 4, 5, 6, 7] false anchoredReads
    _ (Option.some_get _).symm (by decide)

/-- Reads at 4, at 2 and at 3 leave the byte at 2 in a seek window that starts
at 0, and the read at 0 is served from it. -/
theorem reads_not_correct :
    ¬ ∀ (xetHash : String) (content : Bytes) (forwardOnly : Bool)
      (events : List (ReadEvent Unit)) (final : Reader Unit),
      exec step (start xetHash content.length forwardOnly) events =
        some final →
      AllSteps step (fun reader event => reader.Delivers content event)
        (start xetHash content.length forwardOnly) events →
      final.Correct content := by
  intro claim
  have correct := claim "a" [0, 1, 2, 3, 4, 5, 6, 7] false
    [.read 4 4, .fetched [[4, 5, 6, 7]] none, .read 2 1,
      .fetched [[2]] none, .read 3 1, .fetched [[3, 4, 5, 6, 7]] none,
      .read 0 1] _ rfl (by decide)
  exact absurd (correct.1 0 [2] (by decide)) (by decide)

end Reader

end HfMount.Prefetch
