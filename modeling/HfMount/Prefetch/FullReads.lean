import HfMount.Prefetch.Downloads

/-!
# Reads over unreliable downloads

Whatever the downloads do, a read of a lazy handle fails or returns all the
bytes up to the end of the file: the buffers never reach past that end, and
every fetch that succeeds brings the read on.  The stream that is kept goes on
where the buffer ends, unless a stream ended before its first byte: that one is
kept as well, and the next attempt opens another.
-/

namespace HfMount.Prefetch

open Slice Transition

/-- One read, and what the connection does to each of its fetches. -/
structure LazyRead where
  offset : Nat
  size : Nat
  fetches : List (List Attempt)

namespace Reader

/-- What is planned for the rest of a request, with the state that is left. -/
def plan (reader : Reader DownloadStream) (request : ReadRequest) :
    FetchPlan × PrefetchState DownloadStream :=
  reader.prefetch.prepareFetch request.cursor
    (request.toRead - request.response.length)

/-- One round of the assembly loop. -/
def fetchStep (content : Bytes) (reader : Reader DownloadStream)
    (request : ReadRequest) (attempts : List Attempt) :
    Option (Reader DownloadStream) :=
  let planned := reader.plan request
  (fetchData content planned.2 request.cursor planned.1 attempts).bind
    fun fetched =>
      match fetched.1 with
      | some chunks => reader.step (.fetched chunks fetched.2)
      | none => reader.step (.fetchFailed fetched.2)

/-- The assembly loop, until the read has its answer or has failed. -/
def assemble (content : Bytes) : List (List Attempt) →
    Reader DownloadStream → Option (Reader DownloadStream)
  | [], reader => if reader.current.isNone then some reader else none
  | attempts :: fetches, reader =>
      match reader.current with
      | none => some reader
      | some request =>
          (reader.fetchStep content request attempts).bind
            (assemble content fetches)

/-- In no sequential fetch of the read an attempt ends its stream before the
first byte. -/
def steady (content : Bytes) : List (List Attempt) →
    Reader DownloadStream → Bool
  | [], _ => true
  | attempts :: fetches, reader =>
      reader.current.all fun request =>
        (!(reader.plan request).1.strategy.isStream ||
            decide (LastsOnce attempts)) &&
          (reader.fetchStep content request attempts).all
            (steady content fetches)

end Reader

/-- A lazy handle with the reads that have returned; a read that failed has no
data. -/
structure LazyHandle where
  reader : Reader DownloadStream
  results : List (LazyRead × Option Bytes)

namespace LazyHandle

def start (xetHash : String) (fileSize : Nat) (forwardOnly : Bool) :
    LazyHandle :=
  { reader := .start xetHash fileSize forwardOnly
    results := [] }

/-- `VirtualFs::read` on a lazy handle, under the lock of its buffer. -/
def step (content : Bytes) (handle : LazyHandle) (read : LazyRead) :
    Option LazyHandle :=
  (handle.reader.step (.read read.offset read.size)).bind fun begun =>
    (begun.assemble content read.fetches).map fun finished =>
      { reader := finished
        results := handle.results ++
          [(read, (finished.answers.drop handle.reader.answers.length).head?.map
            (·.2.1))] }

/-- The condition of a read on the state before it. -/
def Steady (content : Bytes) (handle : LazyHandle) (read : LazyRead) : Prop :=
  (handle.reader.step (.read read.offset read.size)).all
    (Reader.steady content read.fetches) = true

instance (content : Bytes) (handle : LazyHandle) (read : LazyRead) :
    Decidable (handle.Steady content read) := by
  unfold Steady
  infer_instance

end LazyHandle

/-! ## Lengths and positions -/

namespace PrefetchState

variable {content : Bytes} {ps : PrefetchState DownloadStream}

/-- The buffers lie within the file, and the stream goes on where they end. -/
structure Measured (content : Bytes) (ps : PrefetchState DownloadStream) :
    Prop where
  size : ps.fileSize = content.length
  front : ps.chunksFrontOffset ≤ (ps.chunks.headD []).length
  length : ps.chunksLen = ps.forwardBytes.length
  forward : ps.bufStart + ps.chunksLen ≤ content.length
  seek : ps.seekStart + ps.seekData.length ≤ content.length
  unfilled : ps.seekData = [] → ps.seekStart = 0
  stream : ∀ stream, ps.stream = some stream →
    KeptAt content (ps.bufStart + ps.chunksLen) stream

theorem measured_new (xetHash : String) (content : Bytes)
    (forwardOnly : Bool) :
    (new xetHash content.length forwardOnly).Measured content := by
  constructor <;> simp [new, forwardBytes]

theorem length_readChunkRange (measured : ps.Measured content)
    (skip count : Nat) (inside : skip + count ≤ ps.chunksLen) :
    (readChunkRange ps.chunks ps.chunksFrontOffset skip count).length =
      count := by
  have length := measured.length
  rw [readChunkRange_eq measured.front]
  simp only [forwardBytes] at length
  simp only [List.length_take, List.length_drop] at length ⊢
  omega

theorem trimSeek_end (ps : PrefetchState DownloadStream) :
    ps.trimSeek.seekStart + ps.trimSeek.seekData.length =
        ps.seekStart + ps.seekData.length ∧
      (ps.trimSeek.seekData = [] →
        ps.seekData = [] ∧ ps.trimSeek.seekStart = ps.seekStart) := by
  unfold trimSeek
  split <;> rename_i long
  · constructor
    · simp only [List.length_drop]
      omega
    · intro empty
      simp only [List.drop_eq_nil_iff] at empty
      simp only [seekWindow] at long empty
      omega
  · exact ⟨rfl, fun empty => ⟨empty, rfl⟩⟩

/-- The seek window stays within the file when it takes over bytes of the
buffer. -/
theorem fillSeek_within (measured : ps.Measured content) {toMove : Nat}
    (positive : 0 < toMove) (inside : toMove ≤ ps.chunksLen) :
    (ps.fillSeek toMove).seekStart + (ps.fillSeek toMove).seekData.length ≤
        content.length ∧
      ((ps.fillSeek toMove).seekData = [] →
        (ps.fillSeek toMove).seekStart = 0) := by
  have forward := measured.forward
  unfold fillSeek
  split
  · exact ⟨measured.seek, measured.unfilled⟩
  split <;> rename_i append
  · simp only [seekContiguous, Bool.and_eq_true, Bool.or_eq_true,
      List.isEmpty_iff, beq_iff_eq, decide_eq_true_eq] at append
    obtain ⟨sameEnd, _⟩ := (ps.copyChunksToSeek 0 toMove).trimSeek_end
    have copied := length_readChunkRange measured 0 toMove (by omega)
    have grown : (ps.copyChunksToSeek 0 toMove).seekData.length =
        ps.seekData.length + toMove := by
      simp only [copyChunksToSeek, List.length_append, copied]
    have start : (ps.copyChunksToSeek 0 toMove).seekStart = ps.seekStart := rfl
    constructor
    · rw [sameEnd, grown, start]
      rcases append.1 with empty | meets
      · have zero := measured.unfilled empty
        simp only [empty, zero, List.length_nil]
        omega
      · omega
    · intro empty
      have none := (ps.copyChunksToSeek 0 toMove).trimSeek_end.2 empty
      rw [none.1] at grown
      simp only [List.length_nil] at grown
      omega
  · have copied := length_readChunkRange measured
      (toMove - min toMove seekWindow) (min toMove seekWindow) (by omega)
    have length : ((ps.restartSeek (toMove - min toMove seekWindow)).copyChunksToSeek
        (toMove - min toMove seekWindow) (min toMove seekWindow)).seekData.length =
          min toMove seekWindow := by
      simp only [copyChunksToSeek, restartSeek, List.nil_append]
      exact copied
    constructor
    · rw [length]
      simp only [copyChunksToSeek, restartSeek]
      omega
    · intro empty
      rw [empty] at length
      simp only [List.length_nil, seekWindow] at length
      omega

theorem drainToSeek_measured (measured : ps.Measured content)
    (buffered : 0 < ps.chunksLen) (consumed : Nat) :
    (ps.drainToSeek consumed).Measured content ∧
      (ps.drainToSeek consumed).stream = ps.stream ∧
      (ps.drainToSeek consumed).bufStart =
        ps.bufStart + min consumed ps.chunksLen := by
  unfold drainToSeek
  split <;> rename_i some
  · exact ⟨measured, rfl, by simp [some]⟩
  have inside : min consumed ps.chunksLen ≤ ps.chunksLen := Nat.min_le_right _ _
  have positive : 0 < min consumed ps.chunksLen := by omega
  generalize min consumed ps.chunksLen = toMove at inside positive
  have same := ps.fillSeek_sameBuffer toMove
  obtain ⟨seek, unfilled⟩ := fillSeek_within measured positive inside
  have kept : (ps.fillSeek toMove).stream = ps.stream := by
    unfold fillSeek
    split
    · rfl
    split
    · unfold trimSeek
      split <;> rfl
    · rfl
  have available : toMove ≤ (ps.fillSeek toMove).chunksLen := by
    rw [same.chunksLen]
    exact inside
  obtain ⟨front, _, left, length⟩ := popFront_spec
    (by simpa only [same.frontOffset, same.chunks] using measured.front)
    (by simpa only [forwardBytes, same.chunksLen, same.frontOffset, same.chunks]
      using measured.length)
    available
  have stop : ((ps.fillSeek toMove).popFront toMove).bufStart +
      ((ps.fillSeek toMove).popFront toMove).chunksLen =
        ps.bufStart + ps.chunksLen := by
    rw [left, same.chunksLen]
    simp only [popFront, same.bufStart]
    omega
  refine ⟨⟨same.fileSize.trans measured.size, front, length, ?_, seek,
    unfilled, ?_⟩, kept, ?_⟩
  · rw [stop]
    exact measured.forward
  · rw [stop]
    intro stream found
    exact measured.stream stream (kept ▸ found)
  · simp only [popFront, same.bufStart]

/-- What is drained before a fetch: where the cursor meets the buffer, all of
it. -/
theorem drainConsumed_measured (measured : ps.Measured content)
    (cursor : Nat) :
    (ps.drainConsumed cursor).Measured content ∧
      (ps.drainConsumed cursor).stream = ps.stream ∧
      ((ps.drainConsumed cursor).bufStart = cursor →
        (ps.drainConsumed cursor).bufStart = ps.bufStart + ps.chunksLen) := by
  unfold drainConsumed
  split <;> rename_i buffered
  · obtain ⟨drained, kept, start⟩ := drainToSeek_measured measured buffered
      (if ps.bufStart ≤ cursor then ps.chunksLen else 0)
    refine ⟨drained, kept, ?_⟩
    rw [start]
    split <;> rename_i before
    · simp
    · intro meets
      simp only [Nat.zero_min, Nat.add_zero] at meets
      omega
  · refine ⟨measured, rfl, fun _ => ?_⟩
    omega

/-- A fetch wants something, and a stream that is left for it is at the
cursor. -/
theorem prepareFetch_measured (measured : ps.Measured content) {cursor : Nat}
    (inside : cursor < content.length) {size : Nat} (wanted : 0 < size) :
    (∀ stream, (ps.prepareFetch cursor size).2.stream = some stream →
      (ps.prepareFetch cursor size).1.strategy.isStream = true ∧
        ps.stream = some stream ∧
        Fits content cursor (ps.prepareFetch cursor size).1 stream) ∧
      0 < (ps.prepareFetch cursor size).1.fetchSize ∧
      ∀ stream, (∀ kept, stream = some kept → KeptAt content
          ((ps.prepareFetch cursor size).2.bufStart +
            (ps.prepareFetch cursor size).2.chunksLen) kept) →
        { (ps.prepareFetch cursor size).2 with stream }.Measured content := by
  obtain ⟨drained, kept, meets⟩ := drainConsumed_measured measured cursor
  refine ⟨?_, ?_, ?_⟩
  · intro stream found
    simp only [prepareFetch] at found ⊢
    split at found <;> rename_i sequential
    · simp only [Bool.and_eq_true, beq_iff_eq] at sequential
      obtain ⟨near, start⟩ := sequential
      have before : ps.stream = some stream := kept ▸ found
      obtain ⟨position, limit⟩ := measured.stream stream before
      rw [← meets start.symm, ← start] at position
      have streams : FetchStrategy.isStream
          (if (ps.chunksLen == 0 && ps.bufStart == 0 ||
              decide (ps.bufStart + ps.chunksLen ≤ cursor) &&
                decide (cursor ≤ ps.bufStart + ps.chunksLen + forwardSkip)) =
                true then
            if cursor = (ps.drainConsumed cursor).bufStart then
              if ((ps.drainConsumed cursor).stream.isNone &&
                (ps.chunksLen == 0 && ps.bufStart == 0) && cursor == 0) =
                  true then .startStream
              else .continueStream
            else .startStream
          else .rangeDownload) = true := by
        rw [if_pos near, if_pos start]
        split <;> rfl
      exact ⟨streams, before, position, by rw [limit]; exact inside,
        Nat.le_of_eq limit, fun _ => limit⟩
    · cases found
  · simp only [prepareFetch, measured.size]
    have needed : 0 < min size (content.length - cursor) := by omega
    have positive : ∀ (strategy : FetchStrategy) (window : Nat),
        0 < min (if strategy = .rangeDownload then
            min size (content.length - cursor)
          else max (min size (content.length - cursor)) window)
            (content.length - cursor) := by
      intro strategy window
      apply Nat.lt_min.mpr
      refine ⟨?_, by omega⟩
      split
      · exact needed
      · exact Nat.lt_of_lt_of_le needed (Nat.le_max_left _ _)
    exact positive _ _
  · intro stream fits
    exact ⟨drained.size, drained.front, drained.length, drained.forward,
      drained.seek, drained.unfilled, fits⟩

theorem storeFetched_measured {planned : PrefetchState DownloadStream}
    {stream : Option DownloadStream} (measured : { planned with
      stream := none }.Measured content) {cursor : Nat} {chunks : List Bytes}
    (inside : cursor + chunks.flatten.length ≤ content.length)
    (keeps : ∀ kept, stream = some kept →
      KeptAt content (cursor + chunks.flatten.length) kept) :
    ({ planned with stream }.storeFetched cursor chunks
      chunks.flatten.length).Measured content :=
  { size := measured.size
    front := Nat.zero_le _
    length := by simp [storeFetched, forwardBytes]
    forward := inside
    seek := measured.seek
    unfilled := measured.unfilled
    stream := keeps }

/-- What the forward buffer serves lies within the file. -/
theorem tryServeForward_measured (measured : ps.Measured content)
    (offset size : Nat) :
    (ps.tryServeForward offset size).2.Measured content ∧
      (ps.tryServeForward offset size).2.stream = ps.stream ∧
      ∀ data, (ps.tryServeForward offset size).1 = some data →
        data.length ≤ size ∧ offset + data.length ≤ content.length := by
  unfold tryServeForward
  split <;> rename_i empty
  · exact ⟨measured, rfl, by simp⟩
  split <;> rename_i outside
  · exact ⟨measured, rfl, by simp⟩
  have forward := measured.forward
  have read := length_readChunkRange measured (offset - ps.bufStart)
    (min size (ps.chunksLen - (offset - ps.bufStart))) (by omega)
  dsimp only
  split
  · obtain ⟨drained, kept, _⟩ := drainToSeek_measured measured (by omega)
      (offset - ps.bufStart +
        min size (ps.chunksLen - (offset - ps.bufStart)))
    refine ⟨drained, kept, ?_⟩
    rintro data ⟨⟩
    rw [read]
    omega
  · refine ⟨measured, rfl, ?_⟩
    rintro data ⟨⟩
    rw [read]
    omega

/-- At the start of the buffer there is something to serve. -/
theorem tryServeForward_start (measured : ps.Measured content) {size : Nat}
    (wanted : 0 < size) (buffered : 0 < ps.chunksLen) :
    ∃ data, (ps.tryServeForward ps.bufStart size).1 = some data ∧
      0 < data.length := by
  have read := length_readChunkRange measured (ps.bufStart - ps.bufStart)
    (min size (ps.chunksLen - (ps.bufStart - ps.bufStart))) (by omega)
  unfold tryServeForward
  rw [if_neg (by omega), if_neg (by omega)]
  dsimp only
  split
  · refine ⟨_, rfl, ?_⟩
    rw [read]
    omega
  · refine ⟨_, rfl, ?_⟩
    rw [read]
    omega

theorem tryServeSeek_measured (measured : ps.Measured content)
    {offset size : Nat} {data : Bytes}
    (hit : ps.tryServeSeek offset size = some data) :
    data.length ≤ size ∧ offset + data.length ≤ content.length := by
  have seek := measured.seek
  unfold tryServeSeek at hit
  split at hit
  · cases hit
  split at hit <;> rename_i inside
  · obtain rfl := Option.some.inj hit
    simp only [List.length_take, List.length_drop]
    omega
  · cases hit

end PrefetchState

/-! ## One read -/

namespace Reader

variable {content : Bytes} {reader : Reader DownloadStream}
  {request : ReadRequest} {offset size : Nat}
  {earlier : List (Nat × Bytes × Bool)}

/-- A read of `size` bytes at `offset` goes on, was answered in full, or has
failed. -/
structure Reading (content : Bytes) (offset size : Nat)
    (earlier : List (Nat × Bytes × Bool)) (reader : Reader DownloadStream) :
    Prop where
  prefetch : reader.prefetch.Measured content
  pending : ∀ request, reader.current = some request →
    request.toRead = min size (content.length - offset) ∧
      request.cursor = offset + request.response.length ∧
      request.response.length < request.toRead ∧ reader.answers = earlier
  finished : reader.current = none → reader.answers = earlier ∨
    ∃ answer, reader.answers = earlier ++ [answer] ∧
      answer.2.1.length = min size (content.length - offset)

/-- The stream of the handle has not ended. -/
def Alive (reader : Reader DownloadStream) : Prop :=
  ∀ stream, reader.prefetch.stream = some stream → stream.ended = false

/-- The bytes that a read still wants. -/
def wanting (reader : Reader DownloadStream) : Nat :=
  (reader.current.map fun request =>
    request.toRead - request.response.length).getD 0

theorem Reading.wanting_le
    (reading : reader.Reading content offset size earlier) :
    reader.wanting ≤ size := by
  unfold wanting
  cases current : reader.current with
  | none => simp
  | some request =>
      obtain ⟨toRead, _⟩ := reading.pending request current
      simp only [Option.map_some, Option.getD_some]
      omega

theorem continueWith_reading (prefetch : reader.prefetch.Measured content)
    (answers : reader.answers = earlier)
    (toRead : request.toRead = min size (content.length - offset))
    (cursor : request.cursor = offset + request.response.length)
    (short : request.response.length ≤ request.toRead) :
    (reader.continueWith request).Reading content offset size earlier := by
  unfold continueWith
  split <;> rename_i whole
  · refine ⟨prefetch, ?_, ?_⟩
    · rintro other ⟨⟩
      exact ⟨toRead, cursor, whole, answers⟩
    · rintro ⟨⟩
  · refine ⟨prefetch, ?_, ?_⟩
    · rintro other ⟨⟩
    · intro _
      refine Or.inr ⟨_, by rw [answers], ?_⟩
      simp only
      omega

theorem accept_reading {data : Bytes}
    (prefetch : reader.prefetch.Measured content)
    (answers : reader.answers = earlier)
    (toRead : request.toRead = min size (content.length - offset))
    (cursor : request.cursor = offset + request.response.length)
    (short : request.response.length + data.length ≤ request.toRead) :
    (reader.accept request data).Reading content offset size earlier := by
  refine continueWith_reading prefetch answers toRead ?_ ?_
  · simp only [List.length_append]
    omega
  · simpa only [List.length_append] using short

@[simp] theorem prefetch_continueWith (reader : Reader DownloadStream)
    (request : ReadRequest) :
    (reader.continueWith request).prefetch = reader.prefetch := by
  unfold continueWith
  split <;> rfl

@[simp] theorem prefetch_accept (reader : Reader DownloadStream)
    (request : ReadRequest) (data : Bytes) :
    (reader.accept request data).prefetch = reader.prefetch :=
  prefetch_continueWith _ _

theorem beginRead_reading (measured : reader.prefetch.Measured content)
    (offset size : Nat) :
    (reader.beginRead offset size).Reading content offset size
        reader.answers ∧
      (reader.beginRead offset size).prefetch.stream =
        reader.prefetch.stream := by
  obtain ⟨forward, kept, served⟩ :=
    PrefetchState.tryServeForward_measured measured offset size
  have total := measured.size
  unfold beginRead
  split <;> rename_i prefetch result <;> rw [result] at forward kept served
  · obtain ⟨small, inside⟩ := served _ rfl
    refine ⟨accept_reading forward rfl (by rw [total]) (by simp) ?_, ?_⟩
    · simp only [List.length_nil]
      omega
    · rw [prefetch_accept, kept]
  · split <;> rename_i seekResult
    · obtain ⟨small, inside⟩ :=
        PrefetchState.tryServeSeek_measured forward seekResult
      refine ⟨accept_reading forward rfl (by rw [total]) (by simp) ?_, ?_⟩
      · simp only [List.length_nil]
        omega
      · rw [prefetch_accept, kept]
    · refine ⟨continueWith_reading forward rfl (by rw [total]) (by simp)
        (Nat.zero_le _), ?_⟩
      rw [prefetch_continueWith, kept]

/-- What is served brings the read on. -/
theorem wanting_accept {data : Bytes} (served : 0 < data.length)
    (short : request.response.length < request.toRead) :
    (reader.accept request data).current = none ∨
      (reader.accept request data).wanting <
        request.toRead - request.response.length := by
  unfold accept continueWith
  split <;> rename_i whole
  · right
    simp only [wanting, Option.map_some, Option.getD_some, List.length_append]
    omega
  · exact Or.inl rfl

/-- What a fetch for a request returns and leaves. -/
theorem fetchData_fetched {attempts : List Attempt}
    {result : Option (List Bytes)} {stored : Option DownloadStream}
    (reading : reader.Reading content offset size earlier)
    (current : reader.current = some request)
    (fetched : fetchData content (reader.plan request).2 request.cursor
      (reader.plan request).1 attempts = some (result, stored)) :
    Fetched content request.cursor result stored ∧
      (reader.Alive → ((reader.plan request).1.strategy.isStream = true →
          LastsOnce attempts) →
        ∀ stream, stored = some stream → stream.ended = false) := by
  obtain ⟨toRead, cursor, short, answers⟩ := reading.pending request current
  have inside : request.cursor < content.length := by omega
  obtain ⟨left, wanted, _⟩ := PrefetchState.prepareFetch_measured
    reading.prefetch inside (Nat.sub_pos_of_lt short)
  constructor
  · apply fetchAttempts_fetched fetched wanted inside
    · intro stream first
      split at first
      · exact (left stream first).2.2
      · cases first
    · intro stream kept
      split at kept <;> rename_i sequential
      · cases kept
      · exact absurd (left stream kept).1 sequential
  · intro alive lasts stream found
    unfold fetchData at fetched
    cases sequential : (reader.plan request).1.strategy.isStream with
    | true =>
        simp only [sequential, if_true] at fetched
        apply fetchAttempts_alive fetched wanted inside _ (lasts sequential)
          stream found
        intro first same
        obtain ⟨_, before, fits⟩ := left first same
        exact ⟨fits, alive first before⟩
    | false =>
        have kept := fetchAttempts_range fetched sequential
        simp only [sequential, Bool.false_eq_true, if_false] at kept
        have streams := (left stream (kept ▸ found)).1
        simp only [plan] at sequential
        rw [sequential] at streams
        cases streams

/-- A fetch that succeeds brings the read on, and one that fails ends it. -/
theorem fetchStep_reading {next : Reader DownloadStream}
    {attempts : List Attempt}
    (reading : reader.Reading content offset size earlier)
    (current : reader.current = some request)
    (stepped : reader.fetchStep content request attempts = some next) :
    next.Reading content offset size earlier ∧
      (next.current = none ∨ next.wanting < reader.wanting) ∧
      (reader.Alive → ((reader.plan request).1.strategy.isStream = true →
          LastsOnce attempts) → next.Alive) := by
  obtain ⟨toRead, cursor, short, answers⟩ := reading.pending request current
  have inside : request.cursor < content.length := by omega
  obtain ⟨_, _, restore⟩ := PrefetchState.prepareFetch_measured
    reading.prefetch inside (Nat.sub_pos_of_lt short)
  unfold fetchStep at stepped
  obtain ⟨⟨result, stored⟩, fetched, stepped⟩ :=
    Option.bind_eq_some_iff.mp stepped
  obtain ⟨spec, alive⟩ := fetchData_fetched reading current fetched
  cases result with
  | none =>
      simp only [step, current, Option.map_some, Option.some.injEq] at stepped
      subst stepped
      have measured := restore stored fun kept same =>
        ⟨Or.inl (spec.failed rfl kept same), (spec.kept kept same).limit⟩
      refine ⟨⟨measured, ?_, fun _ => Or.inl answers⟩, Or.inl rfl, alive⟩
      rintro other ⟨⟩
  | some chunks =>
      simp only [step, current, Option.map_some, Option.some.injEq] at stepped
      subst stepped
      obtain ⟨some, room⟩ := spec.delivered chunks rfl
      have filled := PrefetchState.storeFetched_measured
        (restore none (by simp)) room spec.kept
      obtain ⟨forward, kept, served⟩ :=
        PrefetchState.tryServeForward_measured filled request.cursor
          (request.toRead - request.response.length)
      obtain ⟨data, serves, progress⟩ := PrefetchState.tryServeForward_start
        filled (Nat.sub_pos_of_lt short) some
      have began : reader.wanting =
          request.toRead - request.response.length := by
        simp [wanting, current]
      unfold absorb
      dsimp only
      split <;> rename_i prefetch outcome
      · rename_i bytes
        have same := (congrArg Prod.fst outcome).symm.trans serves
        obtain rfl := Option.some.inj same
        rw [outcome] at forward kept served
        obtain ⟨small, _⟩ := served _ rfl
        refine ⟨accept_reading forward answers toRead cursor (by omega), ?_, ?_⟩
        · rw [began]
          exact wanting_accept progress short
        · intro before lasts stream found
          rw [prefetch_accept, kept] at found
          exact alive before lasts stream found
      · have missing := (congrArg Prod.fst outcome).symm.trans serves
        cases missing

theorem assemble_reading {finished : Reader DownloadStream}
    {fetches : List (List Attempt)}
    (reading : reader.Reading content offset size earlier)
    (assembled : reader.assemble content fetches = some finished) :
    finished.Reading content offset size earlier ∧ finished.current = none ∧
      (reader.Alive → reader.steady content fetches = true →
        finished.Alive) := by
  induction fetches generalizing reader with
  | nil =>
      simp only [assemble] at assembled
      split at assembled <;> rename_i idle
      · obtain rfl := Option.some.inj assembled
        exact ⟨reading, by simpa using idle, fun alive _ => alive⟩
      · cases assembled
  | cons attempts fetches ih =>
      cases current : reader.current with
      | none =>
          simp only [assemble, current] at assembled
          obtain rfl := Option.some.inj assembled
          exact ⟨reading, current, fun alive _ => alive⟩
      | some request =>
          simp only [assemble, current] at assembled
          obtain ⟨next, stepped, rest⟩ := Option.bind_eq_some_iff.mp assembled
          obtain ⟨later, _, lives⟩ := fetchStep_reading reading current stepped
          obtain ⟨done, idle, ends⟩ := ih later rest
          refine ⟨done, idle, fun alive steady => ?_⟩
          simp only [Reader.steady, current, Option.all_some, stepped,
            Bool.and_eq_true, Bool.or_eq_true, Bool.not_eq_true',
            decide_eq_true_eq] at steady
          refine ends (lives alive fun sequential => ?_) steady.2
          rcases steady.1 with range | lasts
          · rw [sequential] at range
            cases range
          · exact lasts

/-- A read whose downloads are answered comes to its end. -/
theorem assemble_isSome {fetches : List (List Attempt)}
    (reading : reader.Reading content offset size earlier)
    (enough : reader.wanting ≤ fetches.length)
    (answered : ∀ attempts ∈ fetches, maxAttempts ≤ attempts.length ∧
      ∀ attempt ∈ attempts, attempt.Answered) :
    (reader.assemble content fetches).isSome = true := by
  induction fetches generalizing reader with
  | nil =>
      have idle : reader.current = none := by
        cases current : reader.current with
        | none => rfl
        | some request =>
            obtain ⟨_, _, short, _⟩ := reading.pending request current
            simp only [wanting, current, Option.map_some, Option.getD_some,
              List.length_nil] at enough
            omega
      simp [assemble, idle]
  | cons attempts fetches ih =>
      cases current : reader.current with
      | none => simp [assemble, current]
      | some request =>
          obtain ⟨long, complete⟩ := answered attempts List.mem_cons_self
          have fetched : (fetchData content (reader.plan request).2
              request.cursor (reader.plan request).1 attempts).isSome = true :=
            fetchAttempts_isSome long complete _ _
          obtain ⟨⟨result, stored⟩, same⟩ := Option.isSome_iff_exists.mp fetched
          have stepped : ∃ next,
              reader.fetchStep content request attempts = some next := by
            cases result with
            | none => simp [fetchStep, same, step, current]
            | some chunks => simp [fetchStep, same, step, current]
          obtain ⟨next, stepped⟩ := stepped
          obtain ⟨later, closer, _⟩ := fetchStep_reading reading current stepped
          have room : next.wanting ≤ fetches.length := by
            rcases closer with idle | fewer
            · simp [wanting, idle]
            · simp only [List.length_cons] at enough
              omega
          simp only [assemble, current, stepped, Option.bind_some]
          exact ih later room fun other member =>
            answered other (List.mem_cons_of_mem _ member)

end Reader

/-! ## Every run of reads -/

/-- The downloads of the read are answered to the end. -/
def LazyRead.Answered (read : LazyRead) : Prop :=
  read.size ≤ read.fetches.length ∧
    ∀ attempts ∈ read.fetches, maxAttempts ≤ attempts.length ∧
      ∀ attempt ∈ attempts, attempt.Answered

namespace LazyHandle

variable {content : Bytes}

/-- Between two reads: nothing is underway, and every answer had the length
that was asked for, up to the end of the file. -/
structure Sound (content : Bytes) (handle : LazyHandle) : Prop where
  prefetch : handle.reader.prefetch.Measured content
  idle : handle.reader.current = none
  full : ∀ read data, (read, some data) ∈ handle.results →
    data.length = min read.size (content.length - read.offset)

/-- How a read begins. -/
theorem begin_reading {handle : LazyHandle} (sound : handle.Sound content)
    (offset size : Nat) :
    ∃ begun, handle.reader.step (.read offset size) = some begun ∧
      begun.Reading content offset size handle.reader.answers ∧
      begun.prefetch.stream = handle.reader.prefetch.stream := by
  simp only [Reader.step, sound.idle]
  split <;> rename_i past
  · refine ⟨_, rfl, ⟨sound.prefetch, ?_, ?_⟩, rfl⟩
    · rintro request ⟨⟩
    · intro _
      rw [sound.prefetch.size] at past
      refine Or.inr ⟨_, rfl, ?_⟩
      simp only [List.length_nil]
      omega
  · obtain ⟨reading, kept⟩ :=
      Reader.beginRead_reading sound.prefetch offset size
    exact ⟨_, rfl, reading, kept⟩

theorem step_sound (handle : LazyHandle) (read : LazyRead) (next : LazyHandle)
    (sound : handle.Sound content)
    (stepped : handle.step content read = some next) :
    next.Sound content ∧ (handle.reader.Alive → handle.Steady content read →
      next.reader.Alive) := by
  obtain ⟨begun, begins, reading, kept⟩ :=
    begin_reading sound read.offset read.size
  simp only [step, begins, Option.bind_some, Option.map_eq_some_iff] at stepped
  obtain ⟨finished, assembled, rfl⟩ := stepped
  obtain ⟨done, idle, lives⟩ := Reader.assemble_reading reading assembled
  refine ⟨⟨done.prefetch, idle, ?_⟩, ?_⟩
  · intro other data member
    rcases List.mem_append.mp member with earlier | last
    · exact sound.full other data earlier
    · obtain ⟨rfl, answer⟩ := Prod.mk.inj (List.mem_singleton.mp last)
      rcases done.finished idle with failed | ⟨whole, answers, length⟩
      · simp [failed] at answer
      · simp only [answers, List.drop_left, List.head?_cons,
          Option.map_some, Option.some.injEq] at answer
        rw [answer]
        exact length
  · intro alive steady
    apply lives
    · intro stream found
      exact alive stream (kept ▸ found)
    · simpa only [Steady, begins, Option.all_some] using steady

theorem sound_start (xetHash : String) (content : Bytes)
    (forwardOnly : Bool) :
    (start xetHash content.length forwardOnly).Sound content :=
  { prefetch := PrefetchState.measured_new xetHash content forwardOnly
    idle := rfl
    full := by simp [start] }

/-- In every run of reads each answer has the full length, and a read whose
downloads are answered returns.  Where no stream ends before its first byte,
the kept stream goes on where the buffer ends. -/
theorem reads_full (xetHash : String) (content : Bytes) (forwardOnly : Bool)
    (reads : List LazyRead) (final : LazyHandle)
    (run : exec (step content) (start xetHash content.length forwardOnly)
      reads = some final) :
    (∀ read data, (read, some data) ∈ final.results →
        data.length = min read.size (content.length - read.offset)) ∧
      (∀ read : LazyRead, read.Answered →
        (final.step content read).isSome = true) ∧
      (AllSteps (step content) (Steady content)
          (start xetHash content.length forwardOnly) reads →
        ∀ stream, final.reader.prefetch.stream = some stream →
          stream.position = final.reader.prefetch.bufStart +
            final.reader.prefetch.chunksLen) := by
  have initial := sound_start xetHash content forwardOnly
  have sound := exec_invariant_of_step
    (fun handle read next sound stepped =>
      (step_sound handle read next sound stepped).1) initial run
  refine ⟨sound.full, ?_, ?_⟩
  · intro read answered
    obtain ⟨begun, begins, reading, _⟩ :=
      begin_reading sound read.offset read.size
    have small := Nat.le_trans reading.wanting_le answered.1
    have assembled := Reader.assemble_isSome reading small answered.2
    simp only [step, begins, Option.bind_some, Option.isSome_map, assembled]
  · intro steady stream kept
    have fresh : (start xetHash content.length forwardOnly).reader.Alive := by
      simp [Reader.Alive, start, Reader.start, PrefetchState.new]
    have both : final.Sound content ∧ final.reader.Alive := by
      apply exec_invariant _ ⟨initial, fresh⟩ steady run
      intro handle read next before good stepped
      obtain ⟨sound, lives⟩ := step_sound handle read next before.1 stepped
      exact ⟨sound, lives before.2 good⟩
    rcases (both.1.prefetch.stream stream kept).position with ended | position
    · rw [both.2 stream kept] at ended
      cases ended
    · exact position

/-- Three bytes, read in two parts from one stream. -/
def twoReads : List LazyRead :=
  [⟨0, 2, [[⟨true, [.chunk 0, .chunk 8]⟩]]⟩, ⟨2, 5, []⟩]

theorem reads_full_three_bytes :
    ∃ final, exec (step [1, 2, 3]) (start "a" 3 false) twoReads = some final ∧
      (∀ read data, (read, some data) ∈ final.results →
        data.length = min read.size (3 - read.offset)) ∧
      (∀ stream, final.reader.prefetch.stream = some stream →
        stream.position = final.reader.prefetch.bufStart +
          final.reader.prefetch.chunksLen) := by
  have run : (exec (step [1, 2, 3]) (start "a" 3 false) twoReads).isSome :=
    by decide
  obtain ⟨final, same⟩ := Option.isSome_iff_exists.mp run
  obtain ⟨full, _, placed⟩ := reads_full "a" [1, 2, 3] false twoReads final same
  exact ⟨final, same, full, placed (by decide)⟩

/-- A read at 1 whose first stream ends at once, with no other to be had: the
stream at 1 is kept, and the buffer is empty at 0. -/
theorem kept_elsewhere :
    ¬∀ (xetHash : String) (content : Bytes) (forwardOnly : Bool)
      (reads : List LazyRead) (final : LazyHandle),
      exec (step content) (start xetHash content.length forwardOnly) reads =
        some final →
      ∀ stream, final.reader.prefetch.stream = some stream →
        stream.position = final.reader.prefetch.bufStart +
          final.reader.prefetch.chunksLen := by
  intro claim
  have position := claim "a" [1, 2] false
    [⟨1, 1, [[⟨true, [.endOfStream]⟩, ⟨false, []⟩, ⟨false, []⟩]]⟩] _ rfl
    ⟨1, 2, true⟩ (by decide)
  exact absurd position (by decide)

end LazyHandle

end HfMount.Prefetch
