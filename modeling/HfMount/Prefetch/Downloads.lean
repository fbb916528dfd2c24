import HfMount.Prefetch.Coherence

/-!
# Downloads and their retries

A fetch makes up to three attempts.  A sequential one takes the stream that
the last fetch left, the others open a stream at the cursor; an attempt that
delivered anything ends the fetch.  The bytes of a stream are those of the
file from its position on, and what the connection does to each call is a list
of answers.
-/

namespace HfMount.Prefetch

open Slice

/-- The next byte of a stream is the byte of the file at its position. -/
structure DownloadStream where
  position : Nat
  limit : Nat
  ended : Bool
  deriving DecidableEq

/-- What the connection does to one call of `next`. -/
inductive Answer where
  /-- One byte and this many more, as far as the stream goes. -/
  | chunk (more : Nat)
  | endOfStream
  /-- An error, or a call that timed out. -/
  | failed
  deriving DecidableEq

/-- The connection in one attempt; `opens` counts only where a stream is
opened. -/
structure Attempt where
  opens : Bool
  answers : List Answer
  deriving DecidableEq

inductive Next where
  | chunk (bytes : Bytes)
  | endOfStream
  | failed
  deriving DecidableEq

namespace DownloadStream

/-- `download_stream_boxed`. -/
def openAt (content : Bytes) (offset : Nat) (stop : Option Nat) :
    DownloadStream :=
  { position := offset
    limit := min (stop.getD content.length) content.length
    ended := false }

/-- `next` on a stream; once it has ended it delivers nothing more. -/
def next (content : Bytes) (stream : DownloadStream) :
    Answer → Next × DownloadStream
  | .failed => (.failed, stream)
  | .endOfStream => (.endOfStream, { stream with ended := true })
  | .chunk more =>
      let bytes := slice content stream.position
        (min (more + 1) (stream.limit - stream.position))
      if stream.ended || bytes.isEmpty then
        (.endOfStream, { stream with ended := true })
      else
        (.chunk bytes,
          { stream with position := stream.position + bytes.length })

end DownloadStream

/-- The chunks that an attempt read, and how it stopped. -/
structure Pulled where
  chunks : List Bytes
  failed : Bool
  streamEof : Bool
  stream : DownloadStream

namespace Pulled

def total (pulled : Pulled) : Nat := pulled.chunks.flatten.length

/-- The stream that is kept after an attempt; an end of the stream is looked at
only behind some data. -/
def keep (pulled : Pulled) (plan : FetchPlan)
    (kept : Option DownloadStream) : Option DownloadStream :=
  if pulled.streamEof && decide (0 < pulled.total) then kept
  else if plan.strategy.isStream && !pulled.failed then some pulled.stream
  else kept

end Pulled

/-- The loop that reads chunks while bytes are wanted.  A call that is not
answered does not return. -/
def pull (content : Bytes) : List Answer → DownloadStream → Nat →
    Option Pulled
  | [], stream, wanted =>
      if wanted = 0 then some ⟨[], false, false, stream⟩ else none
  | answer :: answers, stream, wanted =>
      if wanted = 0 then some ⟨[], false, false, stream⟩
      else
        match stream.next content answer with
        | (.chunk bytes, after) =>
            (pull content answers after (wanted - bytes.length)).map
              fun pulled => { pulled with chunks := bytes :: pulled.chunks }
        | (.endOfStream, after) => some ⟨[], false, true, after⟩
        | (.failed, after) => some ⟨[], true, false, after⟩

def maxAttempts : Nat := 3

/-- The stream of an attempt: the one that is at hand, or one that is opened at
the cursor, with a bound for a range. -/
def attemptStream (content : Bytes) (cursor : Nat) (plan : FetchPlan)
    (attempt : Attempt) : Option DownloadStream → Option DownloadStream
  | some stream => some stream
  | none =>
      if attempt.opens then
        some (.openAt content cursor
          (if plan.strategy = .rangeDownload then some (cursor + plan.fetchSize)
          else none))
      else none

/-- The retry loop of `fetch_data`, with the attempts that are left, the
stream for the next one and the stream that is kept. -/
def fetchAttempts (content : Bytes) (cursor : Nat) (plan : FetchPlan) :
    Nat → Option DownloadStream → Option DownloadStream → List Attempt →
      Option (Option (List Bytes) × Option DownloadStream)
  | 0, _, kept, _ => some (none, kept)
  | _ + 1, _, _, [] => none
  | left + 1, first, kept, attempt :: attempts =>
      match attemptStream content cursor plan attempt first with
      | none => fetchAttempts content cursor plan left none kept attempts
      | some stream =>
          (pull content attempt.answers stream plan.fetchSize).bind
            fun pulled =>
              if 0 < pulled.total then
                some (some pulled.chunks, pulled.keep plan kept)
              else
                fetchAttempts content cursor plan left none
                  (pulled.keep plan kept) attempts

/-- `fetch_data`: the chunks, or none for `EIO`, and the stream that is left in
the state. -/
def fetchData (content : Bytes) (ps : PrefetchState DownloadStream)
    (cursor : Nat) (plan : FetchPlan) (attempts : List Attempt) :
    Option (Option (List Bytes) × Option DownloadStream) :=
  fetchAttempts content cursor plan maxAttempts
    (if plan.strategy.isStream then ps.stream else none)
    (if plan.strategy.isStream then none else ps.stream) attempts

/-! ## One attempt -/

section

variable {content : Bytes}

/-- Where reading takes a stream: it moves by what it delivers, never past its
limit, and delivers nothing once it has ended. -/
structure Pulls (stream : DownloadStream) (wanted : Nat) (pulled : Pulled) :
    Prop where
  position : pulled.stream.position = stream.position + pulled.total
  limit : pulled.stream.limit = stream.limit
  within : stream.position ≤ stream.limit →
    pulled.stream.position ≤ stream.limit
  silent : stream.ended = true → pulled.total = 0
  ended : pulled.stream.ended = (stream.ended || pulled.streamEof)
  enough : pulled.failed = false → pulled.streamEof = false →
    wanted ≤ pulled.total

theorem next_chunk {stream after : DownloadStream} {answer : Answer}
    {bytes : Bytes}
    (next : stream.next content answer = (.chunk bytes, after)) :
    stream.ended = false ∧ bytes ≠ [] ∧
      bytes.length ≤ stream.limit - stream.position ∧
      after = { stream with position := stream.position + bytes.length } := by
  cases answer with
  | failed => simp [DownloadStream.next] at next
  | endOfStream => simp [DownloadStream.next] at next
  | chunk more =>
      simp only [DownloadStream.next] at next
      split at next <;> rename_i silent
      · simp at next
      · simp only [Bool.or_eq_true, not_or, Bool.not_eq_true,
          List.isEmpty_eq_false_iff] at silent
        obtain ⟨same, rfl⟩ := Prod.mk.inj next
        obtain rfl := Next.chunk.inj same
        refine ⟨silent.1, silent.2, ?_, rfl⟩
        have bound := List.length_take_le
          (min (more + 1) (stream.limit - stream.position))
          (content.drop stream.position)
        simp only [slice]
        omega

theorem next_endOfStream {stream after : DownloadStream} {answer : Answer}
    (next : stream.next content answer = (.endOfStream, after)) :
    after = { stream with ended := true } := by
  cases answer with
  | failed => simp [DownloadStream.next] at next
  | endOfStream =>
      obtain ⟨_, rfl⟩ := Prod.mk.inj next
      rfl
  | chunk more =>
      simp only [DownloadStream.next] at next
      split at next
      · obtain ⟨_, rfl⟩ := Prod.mk.inj next
        rfl
      · simp at next

theorem next_failed {stream after : DownloadStream} {answer : Answer}
    (next : stream.next content answer = (.failed, after)) :
    after = stream := by
  cases answer with
  | failed =>
      obtain ⟨_, rfl⟩ := Prod.mk.inj next
      rfl
  | endOfStream => simp [DownloadStream.next] at next
  | chunk more =>
      simp only [DownloadStream.next] at next
      split at next
      · simp at next
      · simp at next

theorem pull_pulls {answers : List Answer} {stream : DownloadStream}
    {wanted : Nat} {pulled : Pulled}
    (read : pull content answers stream wanted = some pulled) :
    Pulls stream wanted pulled := by
  have idle : ∀ {stream : DownloadStream},
      Pulls stream 0 ⟨[], false, false, stream⟩ := by
    intro stream
    constructor <;> simp [Pulled.total]
  induction answers generalizing stream wanted pulled with
  | nil =>
      simp only [pull] at read
      split at read <;> rename_i done
      · obtain rfl := Option.some.inj read
        exact done ▸ idle
      · cases read
  | cons answer answers ih =>
      simp only [pull] at read
      split at read <;> rename_i done
      · obtain rfl := Option.some.inj read
        exact done ▸ idle
      split at read <;> rename_i after next
      · rename_i bytes
        obtain ⟨rest, reads, rfl⟩ := Option.map_eq_some_iff.mp read
        obtain ⟨alive, nonempty, room, rfl⟩ := next_chunk next
        have later := ih reads
        have total : Pulled.total { rest with chunks := bytes :: rest.chunks } =
            bytes.length + rest.total := by
          simp [Pulled.total]
        refine ⟨?_, later.limit, ?_, ?_, later.ended, ?_⟩
        · rw [total, ← Nat.add_assoc]
          exact later.position
        · intro inside
          apply later.within
          simp only
          omega
        · intro dead
          rw [alive] at dead
          cases dead
        · intro sound going
          have rested := later.enough sound going
          rw [total]
          omega
      · obtain rfl := Option.some.inj read
        obtain rfl := next_endOfStream next
        constructor <;> simp [Pulled.total]
      · obtain rfl := Option.some.inj read
        obtain rfl := next_failed next
        constructor <;> simp [Pulled.total]

/-- A stream that is alive and does not end at once delivers something, unless
the call fails. -/
theorem pull_alive {answers : List Answer} {stream : DownloadStream}
    {wanted : Nat} {pulled : Pulled}
    (read : pull content answers stream wanted = some pulled)
    (needed : 0 < wanted) (alive : stream.ended = false)
    (room : stream.position < stream.limit)
    (limit : stream.limit ≤ content.length)
    (lasts : answers.head? ≠ some .endOfStream)
    (sound : pulled.failed = false) : 0 < pulled.total := by
  have wants : wanted ≠ 0 := Nat.ne_of_gt needed
  cases answers with
  | nil => simp [pull, wants] at read
  | cons answer answers =>
      simp only [pull, if_neg wants] at read
      cases answer with
      | endOfStream => exact absurd rfl lasts
      | failed =>
          simp only [DownloadStream.next] at read
          obtain rfl := Option.some.inj read
          cases sound
      | chunk more =>
          have bytes : slice content stream.position
              (min (more + 1) (stream.limit - stream.position)) ≠ [] := by
            apply List.ne_nil_of_length_pos
            simp only [slice, List.length_take, List.length_drop]
            omega
          have full : (slice content stream.position
              (min (more + 1) (stream.limit - stream.position))).isEmpty =
                false := by simpa using bytes
          simp only [DownloadStream.next, alive, full, Bool.or_self,
            Bool.false_eq_true, if_false] at read
          obtain ⟨rest, _, rfl⟩ := Option.map_eq_some_iff.mp read
          have positive := List.length_pos_of_ne_nil bytes
          simp only [Pulled.total, List.flatten_cons, List.length_append]
          omega

/-! ## One fetch -/

/-- A stream that an attempt at `cursor` may read. -/
structure Fits (content : Bytes) (cursor : Nat) (plan : FetchPlan)
    (stream : DownloadStream) : Prop where
  position : stream.ended = true ∨ stream.position = cursor
  room : cursor < stream.limit
  limit : stream.limit ≤ content.length
  whole : plan.strategy.isStream = true → stream.limit = content.length

/-- A stream in the state of a handle whose buffer ends at `stop`. -/
structure KeptAt (content : Bytes) (stop : Nat) (stream : DownloadStream) :
    Prop where
  position : stream.ended = true ∨ stream.position = stop
  limit : stream.limit = content.length

variable {cursor : Nat} {plan : FetchPlan}

theorem fits_openAt (wanted : 0 < plan.fetchSize)
    (inside : cursor < content.length) :
    Fits content cursor plan (.openAt content cursor
      (if plan.strategy = .rangeDownload then some (cursor + plan.fetchSize)
      else none)) := by
  constructor
  · exact Or.inr rfl
  · simp only [DownloadStream.openAt]
    split
    · simp only [Option.getD_some]
      omega
    · simpa using inside
  · exact Nat.min_le_right _ _
  · intro sequential
    have other : plan.strategy ≠ .rangeDownload := by
      intro range
      rw [range] at sequential
      cases sequential
    simp [DownloadStream.openAt, other]

/-- A stream that was not at hand is new. -/
theorem attemptStream_fits {attempt : Attempt} {first : Option DownloadStream}
    {stream : DownloadStream} (wanted : 0 < plan.fetchSize)
    (inside : cursor < content.length)
    (taken : attemptStream content cursor plan attempt first = some stream) :
    first = some stream ∨
      (Fits content cursor plan stream ∧ stream.ended = false) := by
  cases first with
  | some held => exact Or.inl taken
  | none =>
      simp only [attemptStream] at taken
      split at taken
      · obtain rfl := Option.some.inj taken
        exact Or.inr ⟨fits_openAt wanted inside, rfl⟩
      · cases taken

theorem keep_of_data {stream : DownloadStream} {pulled : Pulled}
    {kept : Option DownloadStream} (fits : Fits content cursor plan stream)
    (pulls : Pulls stream plan.fetchSize pulled)
    (dead : ∀ stream, kept = some stream →
      stream.ended = true ∧ stream.limit = content.length)
    (data : 0 < pulled.total) :
    cursor + pulled.total ≤ content.length ∧
      ∀ stream, pulled.keep plan kept = some stream →
        KeptAt content (cursor + pulled.total) stream := by
  have alive : stream.ended = false := by
    cases ended : stream.ended with
    | false => rfl
    | true =>
        have silent := pulls.silent ended
        omega
  have start : stream.position = cursor := by
    rcases fits.position with ended | start
    · rw [alive] at ended
      cases ended
    · exact start
  have moved := pulls.position
  rw [start] at moved
  have within := pulls.within (by rw [start]; exact Nat.le_of_lt fits.room)
  refine ⟨Nat.le_trans (moved ▸ within) fits.limit, ?_⟩
  intro other found
  have old : kept = some other →
      KeptAt content (cursor + pulled.total) other := by
    intro same
    exact ⟨Or.inl (dead other same).1, (dead other same).2⟩
  unfold Pulled.keep at found
  split at found
  · exact old found
  · split at found <;> rename_i keeps
    · simp only [Bool.and_eq_true] at keeps
      obtain rfl := Option.some.inj found
      exact ⟨Or.inr moved, pulls.limit.trans (fits.whole keeps.1)⟩
    · exact old found

/-- An attempt without data keeps a stream only if that has ended. -/
theorem keep_of_silence {stream : DownloadStream} {pulled : Pulled}
    {kept : Option DownloadStream} (fits : Fits content cursor plan stream)
    (pulls : Pulls stream plan.fetchSize pulled)
    (dead : ∀ stream, kept = some stream →
      stream.ended = true ∧ stream.limit = content.length)
    (wanted : 0 < plan.fetchSize) (silence : ¬0 < pulled.total) :
    ∀ stream, pulled.keep plan kept = some stream →
      stream.ended = true ∧ stream.limit = content.length := by
  intro other found
  unfold Pulled.keep at found
  split at found
  · exact dead other found
  · split at found <;> rename_i keeps
    · simp only [Bool.and_eq_true, Bool.not_eq_true'] at keeps
      obtain rfl := Option.some.inj found
      refine ⟨?_, pulls.limit.trans (fits.whole keeps.1)⟩
      rw [pulls.ended]
      cases eof : pulled.streamEof with
      | true => simp
      | false =>
          have enough := pulls.enough keeps.2 eof
          omega
    · exact dead other found

/-- What a fetch at `cursor` returns and leaves. -/
structure Fetched (content : Bytes) (cursor : Nat)
    (result : Option (List Bytes)) (stored : Option DownloadStream) :
    Prop where
  delivered : ∀ chunks, result = some chunks → 0 < chunks.flatten.length ∧
    cursor + chunks.flatten.length ≤ content.length
  kept : ∀ stream, stored = some stream →
    KeptAt content (cursor + (result.getD []).flatten.length) stream
  failed : result = none → ∀ stream, stored = some stream →
    stream.ended = true

theorem fetchAttempts_fetched {left : Nat} {first kept : Option DownloadStream}
    {attempts : List Attempt} {result : Option (List Bytes)}
    {stored : Option DownloadStream}
    (fetched : fetchAttempts content cursor plan left first kept attempts =
      some (result, stored))
    (wanted : 0 < plan.fetchSize) (inside : cursor < content.length)
    (fits : ∀ stream, first = some stream → Fits content cursor plan stream)
    (dead : ∀ stream, kept = some stream →
      stream.ended = true ∧ stream.limit = content.length) :
    Fetched content cursor result stored := by
  induction left generalizing first kept attempts with
  | zero =>
      simp only [fetchAttempts] at fetched
      obtain ⟨rfl, rfl⟩ := Prod.mk.inj (Option.some.inj fetched)
      constructor
      · intro chunks none
        cases none
      · intro stream same
        exact ⟨Or.inl (dead stream same).1, (dead stream same).2⟩
      · intro _ stream same
        exact (dead stream same).1
  | succ left ih =>
      cases attempts with
      | nil => simp [fetchAttempts] at fetched
      | cons attempt attempts =>
          have missing : ∀ stream, (none : Option DownloadStream) =
              some stream → Fits content cursor plan stream := by
            intro stream none
            cases none
          simp only [fetchAttempts] at fetched
          split at fetched
          · exact ih fetched missing dead
          · rename_i stream taken
            have fits : Fits content cursor plan stream := by
              rcases attemptStream_fits wanted inside taken with held | fresh
              · exact fits stream held
              · exact fresh.1
            obtain ⟨pulled, read, rest⟩ := Option.bind_eq_some_iff.mp fetched
            have pulls := pull_pulls read
            split at rest <;> rename_i data
            · obtain ⟨rfl, rfl⟩ := Prod.mk.inj (Option.some.inj rest)
              obtain ⟨room, keeps⟩ := keep_of_data fits pulls dead data
              constructor
              · rintro chunks ⟨⟩
                exact ⟨data, room⟩
              · exact keeps
              · intro none
                cases none
            · exact ih rest missing
                (keep_of_silence fits pulls dead wanted data)

/-- No attempt ends its stream before the first byte. -/
def LastsOnce (attempts : List Attempt) : Prop :=
  ∀ attempt ∈ attempts, attempt.answers.head? ≠ some .endOfStream

instance (attempts : List Attempt) : Decidable (LastsOnce attempts) := by
  unfold LastsOnce
  infer_instance

/-- Where no attempt ends before its first byte, no stream is kept that has
ended. -/
theorem fetchAttempts_alive {left : Nat} {first : Option DownloadStream}
    {attempts : List Attempt} {result : Option (List Bytes)}
    {stored : Option DownloadStream}
    (fetched : fetchAttempts content cursor plan left first none attempts =
      some (result, stored))
    (wanted : 0 < plan.fetchSize) (inside : cursor < content.length)
    (fits : ∀ stream, first = some stream →
      Fits content cursor plan stream ∧ stream.ended = false)
    (lasts : LastsOnce attempts) :
    ∀ stream, stored = some stream → stream.ended = false := by
  induction left generalizing first attempts with
  | zero =>
      simp only [fetchAttempts] at fetched
      obtain ⟨rfl, rfl⟩ := Prod.mk.inj (Option.some.inj fetched)
      simp
  | succ left ih =>
      cases attempts with
      | nil => simp [fetchAttempts] at fetched
      | cons attempt attempts =>
          have others : LastsOnce attempts := fun other member =>
            lasts other (List.mem_cons_of_mem _ member)
          simp only [fetchAttempts] at fetched
          split at fetched
          · exact ih fetched (by simp) others
          · rename_i stream taken
            obtain ⟨fits, alive⟩ : Fits content cursor plan stream ∧
                stream.ended = false := by
              rcases attemptStream_fits wanted inside taken with held | fresh
              · exact fits stream held
              · exact fresh
            have start : stream.position = cursor := by
              rcases fits.position with ended | start
              · rw [alive] at ended
                cases ended
              · exact start
            obtain ⟨pulled, read, rest⟩ := Option.bind_eq_some_iff.mp fetched
            have pulls := pull_pulls read
            have delivers := pull_alive read wanted alive
              (by rw [start]; exact fits.room) fits.limit
              (lasts attempt List.mem_cons_self)
            split at rest <;> rename_i data
            · obtain ⟨rfl, rfl⟩ := Prod.mk.inj (Option.some.inj rest)
              intro other found
              unfold Pulled.keep at found
              split at found <;> rename_i eof
              · cases found
              · split at found
                · obtain rfl := Option.some.inj found
                  have going : pulled.streamEof = false := by
                    simpa [data] using eof
                  rw [pulls.ended, alive, going]
                  rfl
                · cases found
            · have broken : pulled.keep plan none = none := by
                unfold Pulled.keep
                split
                · rfl
                · rw [if_neg]
                  intro keeps
                  simp only [Bool.and_eq_true, Bool.not_eq_true'] at keeps
                  exact data (delivers keeps.2)
              rw [broken] at rest
              exact ih rest (by simp) others

/-- A range keeps no stream. -/
theorem fetchAttempts_range {left : Nat} {first kept : Option DownloadStream}
    {attempts : List Attempt} {result : Option (List Bytes)}
    {stored : Option DownloadStream}
    (fetched : fetchAttempts content cursor plan left first kept attempts =
      some (result, stored))
    (range : plan.strategy.isStream = false) : stored = kept := by
  have keep : ∀ pulled : Pulled, pulled.keep plan kept = kept := by
    intro pulled
    simp [Pulled.keep, range]
  induction left generalizing first attempts with
  | zero =>
      simp only [fetchAttempts] at fetched
      exact (Prod.mk.inj (Option.some.inj fetched)).2.symm
  | succ left ih =>
      cases attempts with
      | nil => simp [fetchAttempts] at fetched
      | cons attempt attempts =>
          simp only [fetchAttempts] at fetched
          split at fetched
          · exact ih fetched
          · obtain ⟨pulled, _, rest⟩ := Option.bind_eq_some_iff.mp fetched
            simp only [keep] at rest
            split at rest
            · exact (Prod.mk.inj (Option.some.inj rest)).2.symm
            · exact ih rest

/-! ## What returns -/

/-- The connection answers until the attempt is over. -/
def Attempt.Answered (attempt : Attempt) : Prop :=
  .endOfStream ∈ attempt.answers ∨ .failed ∈ attempt.answers

theorem pull_isSome {answers : List Answer}
    (answered : .endOfStream ∈ answers ∨ .failed ∈ answers)
    (stream : DownloadStream) (wanted : Nat) :
    (pull content answers stream wanted).isSome = true := by
  induction answers generalizing stream wanted with
  | nil => simp at answered
  | cons answer answers ih =>
      simp only [pull]
      split
      · rfl
      split <;> rename_i after next
      · rename_i bytes
        have later : .endOfStream ∈ answers ∨ .failed ∈ answers := by
          rcases answered with ends | fails
          · rcases List.mem_cons.mp ends with rfl | rest
            · simp [DownloadStream.next] at next
            · exact Or.inl rest
          · rcases List.mem_cons.mp fails with rfl | rest
            · simp [DownloadStream.next] at next
            · exact Or.inr rest
        simpa using ih later after (wanted - bytes.length)
      · rfl
      · rfl

theorem fetchAttempts_isSome {left : Nat} {attempts : List Attempt}
    (enough : left ≤ attempts.length)
    (answered : ∀ attempt ∈ attempts, attempt.Answered)
    (first kept : Option DownloadStream) :
    (fetchAttempts content cursor plan left first kept attempts).isSome =
      true := by
  induction left generalizing first kept attempts with
  | zero => simp [fetchAttempts]
  | succ left ih =>
      cases attempts with
      | nil => simp at enough
      | cons attempt attempts =>
          have shorter : left ≤ attempts.length := by
            simp only [List.length_cons] at enough
            omega
          have later := fun first kept => ih shorter
            (fun other member => answered other (List.mem_cons_of_mem _ member))
            first kept
          simp only [fetchAttempts]
          split
          · exact later none kept
          · rename_i stream taken
            have read : (pull content attempt.answers stream
                plan.fetchSize).isSome = true :=
              pull_isSome (answered attempt List.mem_cons_self) stream _
            obtain ⟨pulled, same⟩ := Option.isSome_iff_exists.mp read
            rw [same, Option.bind_some]
            split
            · rfl
            · exact later none _

end

end HfMount.Prefetch
