import HfMount.Basic
import Mathlib.Data.List.Basic

/-!
# The prefetch buffer of an open remote file

`PrefetchState` keeps the chunks that the last download delivered, of which
the first may be partly consumed, and a flat window of bytes that were already
consumed, so that a short backward jump needs no download.  The definitions
follow `virtual_fs/prefetch.rs`; a `Bytes` value is a list of bytes and the
zero-copy slices of the source are ordinary sublists.
-/

namespace HfMount.Prefetch

/-- Initial prefetch window for sequential reads (8 MiB). -/
def initialWindow : Nat := 8 * 1048576

/-- Maximum prefetch window (128 MiB). -/
def maxWindow : Nat := 128 * 1048576

/-- Capacity of the backward seek window (1 MiB). -/
def seekWindow : Nat := 1048576

/-- How far a read may skip forward without counting as a far seek (16 MiB). -/
def forwardSkip : Nat := 16 * 1048576

inductive FetchStrategy where
  | startStream
  | continueStream
  | rangeDownload
  deriving DecidableEq

def FetchStrategy.isStream : FetchStrategy → Bool
  | .startStream | .continueStream => true
  | .rangeDownload => false

structure FetchPlan where
  strategy : FetchStrategy
  fetchSize : Nat
  deriving DecidableEq

/-- `σ` is the type of the download streams. -/
structure PrefetchState (σ : Type) where
  xetHash : String
  fileSize : Nat
  chunks : List Bytes
  chunksLen : Nat
  /-- Bytes of the first chunk that were already consumed. -/
  chunksFrontOffset : Nat
  bufStart : Nat
  seekData : Bytes
  seekStart : Nat
  windowSize : Nat
  stream : Option σ
  forwardOnly : Bool
  deriving DecidableEq

/-- The inner loop of `readChunkRange`: bytes from the chunks that follow the
one in which the range begins. -/
def takeFromChunks : List Bytes → Nat → Bytes
  | [], _ => []
  | next :: rest, remaining =>
      let take := min remaining next.length
      if remaining - take = 0 then next.take take
      else next.take take ++ takeFromChunks rest (remaining - take)

/-- The outer loop of `readChunkRange`; `start` is the front offset for the
first chunk and zero for the others. -/
def readChunkRangeFrom : List Bytes → Nat → Nat → Nat → Bytes
  | [], _, _, _ => []
  | chunk :: rest, start, logicalOff, count =>
      let eff := chunk.length - start
      if logicalOff < eff then
        let chunkStart := start + logicalOff
        let chunkAvail := chunk.length - chunkStart
        if count ≤ chunkAvail then (chunk.drop chunkStart).take count
        else chunk.drop chunkStart ++ takeFromChunks rest (count - chunkAvail)
      else readChunkRangeFrom rest 0 (logicalOff - eff) count

def readChunkRange (chunks : List Bytes) (frontOffset skip count : Nat) :
    Bytes :=
  if count = 0 then [] else readChunkRangeFrom chunks frontOffset skip count

/-- The `while remaining > 0` loop of `drainToSeek`: returns the chunks, the
front offset and the buffered length that are left. -/
def popConsumed : List Bytes → Nat → Nat → Nat → List Bytes × Nat × Nat
  | [], frontOffset, chunksLen, _ => ([], frontOffset, chunksLen)
  | chunk :: rest, frontOffset, chunksLen, remaining =>
      if remaining = 0 then (chunk :: rest, frontOffset, chunksLen)
      else
        let eff := chunk.length - frontOffset
        if eff ≤ remaining then
          popConsumed rest 0 (chunksLen - eff) (remaining - eff)
        else (chunk :: rest, frontOffset + remaining, chunksLen - remaining)

namespace PrefetchState

variable {σ : Type}

def new (xetHash : String) (fileSize : Nat) (forwardOnly : Bool) :
    PrefetchState σ :=
  { xetHash
    fileSize
    chunks := []
    chunksLen := 0
    chunksFrontOffset := 0
    bufStart := 0
    seekData := []
    seekStart := 0
    windowSize := initialWindow
    stream := none
    forwardOnly }

def copyChunksToSeek (ps : PrefetchState σ) (skip count : Nat) :
    PrefetchState σ :=
  { ps with
    seekData :=
      ps.seekData ++ readChunkRange ps.chunks ps.chunksFrontOffset skip count }

/-- Drop the oldest bytes of the seek window beyond its capacity. -/
def trimSeek (ps : PrefetchState σ) : PrefetchState σ :=
  if seekWindow < ps.seekData.length then
    let excess := ps.seekData.length - seekWindow
    { ps with
      seekData := ps.seekData.drop excess
      seekStart := ps.seekStart + excess }
  else ps

/-- `contiguous` in `drainToSeek`: an empty window counts as contiguous. -/
def seekContiguous (ps : PrefetchState σ) : Bool :=
  ps.seekData.isEmpty || ps.seekStart + ps.seekData.length == ps.bufStart

/-- Forget the seek window and let it begin `skip` bytes into the buffer. -/
def restartSeek (ps : PrefetchState σ) (skip : Nat) : PrefetchState σ :=
  { ps with seekData := [], seekStart := ps.bufStart + skip }

/-- The part of `drainToSeek` that fills the seek window. -/
def fillSeek (ps : PrefetchState σ) (toMove : Nat) : PrefetchState σ :=
  if ps.forwardOnly then ps
  else if ps.seekContiguous && decide (toMove ≤ seekWindow) then
    -- The start of an empty window is left as it is.
    (ps.copyChunksToSeek 0 toMove).trimSeek
  else
    (ps.restartSeek (toMove - min toMove seekWindow)).copyChunksToSeek
      (toMove - min toMove seekWindow) (min toMove seekWindow)

/-- The part of `drainToSeek` that takes the moved bytes out of the buffer. -/
def popFront (ps : PrefetchState σ) (toMove : Nat) : PrefetchState σ :=
  let popped := popConsumed ps.chunks ps.chunksFrontOffset ps.chunksLen toMove
  { ps with
    chunks := popped.1
    chunksFrontOffset := popped.2.1
    chunksLen := popped.2.2
    bufStart := ps.bufStart + toMove }

def drainToSeek (ps : PrefetchState σ) (consumed : Nat) : PrefetchState σ :=
  if consumed = 0 then ps
  else
    (ps.fillSeek (min consumed ps.chunksLen)).popFront
      (min consumed ps.chunksLen)

/-- The first part of `prepareFetch`: move consumed bytes out of the buffer. -/
def drainConsumed (ps : PrefetchState σ) (offset : Nat) : PrefetchState σ :=
  if 0 < ps.chunksLen then
    ps.drainToSeek (if ps.bufStart ≤ offset then ps.chunksLen else 0)
  else ps

/-- Cache miss: drain consumed data, classify the access pattern, adjust the
window and decide how much to fetch. -/
def prepareFetch (ps : PrefetchState σ) (offset size : Nat) :
    FetchPlan × PrefetchState σ :=
  let oldBufEnd := ps.bufStart + ps.chunksLen
  let isFirstFetch := ps.chunksLen == 0 && ps.bufStart == 0
  let drained := ps.drainConsumed offset
  let isNear :=
    decide (oldBufEnd ≤ offset) && decide (offset ≤ oldBufEnd + forwardSkip)
  let isSequential := isFirstFetch || isNear
  let windowSize :=
    if isFirstFetch then drained.windowSize
    else if isNear then min (drained.windowSize * 2) maxWindow
    else initialWindow
  let strategy :=
    if isSequential then
      if offset = drained.bufStart then
        if drained.stream.isNone && isFirstFetch && offset == 0 then
          .startStream
        else .continueStream
      else .startStream
    else .rangeDownload
  -- A gap or a far seek drops the running stream.
  let stream :=
    if isSequential && offset == drained.bufStart then drained.stream else none
  let needed := min size (ps.fileSize - offset)
  let fetchSize :=
    min (if strategy = .rangeDownload then needed else max needed windowSize)
      (ps.fileSize - offset)
  ({ strategy, fetchSize }, { drained with windowSize, stream })

def storeFetched (ps : PrefetchState σ) (offset : Nat) (chunks : List Bytes)
    (total : Nat) : PrefetchState σ :=
  { ps with
    chunks
    chunksLen := total
    chunksFrontOffset := 0
    bufStart := offset }

def tryServeForward (ps : PrefetchState σ) (offset size : Nat) :
    Option Bytes × PrefetchState σ :=
  if ps.chunksLen = 0 then (none, ps)
  else if offset < ps.bufStart ∨ ps.bufStart + ps.chunksLen ≤ offset then
    (none, ps)
  else
    let logicalOff := offset - ps.bufStart
    let toRead := min size (ps.chunksLen - logicalOff)
    let data := readChunkRange ps.chunks ps.chunksFrontOffset logicalOff toRead
    if ps.forwardOnly && decide (0 < toRead) then
      (some data, ps.drainToSeek (logicalOff + toRead))
    else (some data, ps)

def tryServeSeek (ps : PrefetchState σ) (offset size : Nat) : Option Bytes :=
  if ps.forwardOnly || ps.seekData.isEmpty then none
  else if ps.seekStart ≤ offset ∧
      offset < ps.seekStart + ps.seekData.length then
    let localOff := offset - ps.seekStart
    let toRead := min size (ps.seekData.length - localOff)
    some ((ps.seekData.drop localOff).take toRead)
  else none

end PrefetchState

/-! ## The read loop -/

/-- A read request in progress: the loop of `VirtualFs::read` on a lazy
handle. -/
structure ReadRequest where
  offset : Nat
  toRead : Nat
  response : Bytes
  cursor : Nat
  deriving DecidableEq

/-- One lazy handle.  `served` lists what each successful `tryServeForward` or
`tryServeSeek` call returned, with the offset it was asked for; `answers`
lists the finished reads as offset, data and end-of-file flag. -/
structure Reader (σ : Type) where
  prefetch : PrefetchState σ
  current : Option ReadRequest
  served : List (Nat × Bytes)
  answers : List (Nat × Bytes × Bool)
  deriving DecidableEq

/-- `fetched` and `fetchFailed` are the two outcomes of `fetch_data`, with the
stream that it leaves in the state. -/
inductive ReadEvent (σ : Type) where
  | read (offset size : Nat)
  | fetched (chunks : List Bytes) (stream : Option σ)
  | fetchFailed (stream : Option σ)
  deriving DecidableEq

namespace Reader

variable {σ : Type}

def start (xetHash : String) (fileSize : Nat) (forwardOnly : Bool) :
    Reader σ :=
  { prefetch := .new xetHash fileSize forwardOnly
    current := none
    served := []
    answers := [] }

/-- The loop condition: go on fetching, or answer. -/
def continueWith (reader : Reader σ) (request : ReadRequest) : Reader σ :=
  if request.response.length < request.toRead then
    { reader with current := some request }
  else
    { reader with
      current := none
      answers := reader.answers ++ [(request.offset, request.response,
        request.cursor == reader.prefetch.fileSize)] }

/-- What the request does with data served at its cursor. -/
def accept (reader : Reader σ) (request : ReadRequest) (data : Bytes) :
    Reader σ :=
  { reader with served := reader.served ++ [(request.cursor, data)] }.continueWith
    { request with
      response := request.response ++ data
      cursor := request.cursor + data.length }

/-- A new request: the forward buffer, else the seek window, else a fetch. -/
def beginRead (reader : Reader σ) (offset size : Nat) : Reader σ :=
  let request : ReadRequest :=
    { offset
      toRead := min size (reader.prefetch.fileSize - offset)
      response := []
      cursor := offset }
  match reader.prefetch.tryServeForward offset size with
  | (some data, prefetch) => { reader with prefetch }.accept request data
  | (none, prefetch) =>
      match prefetch.tryServeSeek offset size with
      | some data => { reader with prefetch }.accept request data
      | none => { reader with prefetch }.continueWith request

/-- One round of the assembly loop after a successful fetch. -/
def absorb (reader : Reader σ) (request : ReadRequest) (chunks : List Bytes)
    (stream : Option σ) : Reader σ :=
  let remaining := request.toRead - request.response.length
  let planned := (reader.prefetch.prepareFetch request.cursor remaining).2
  let stored := { planned with stream }.storeFetched request.cursor chunks
    chunks.flatten.length
  match stored.tryServeForward request.cursor remaining with
  | (some data, prefetch) => { reader with prefetch }.accept request data
  | (none, prefetch) => { reader with prefetch }.continueWith request

def step (reader : Reader σ) : ReadEvent σ → Option (Reader σ)
  | .read offset size =>
      match reader.current with
      | some _ => none
      | none =>
          if reader.prefetch.fileSize ≤ offset then
            some { reader with answers := reader.answers ++ [(offset, [], true)] }
          else some (reader.beginRead offset size)
  | .fetched chunks stream =>
      reader.current.map fun request => reader.absorb request chunks stream
  | .fetchFailed stream =>
      reader.current.map fun request =>
        let remaining := request.toRead - request.response.length
        let planned := (reader.prefetch.prepareFetch request.cursor remaining).2
        { reader with prefetch := { planned with stream }, current := none }

end Reader

end HfMount.Prefetch
