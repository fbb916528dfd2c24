import HfMount.Lib.Utf8
import Mathlib.Algebra.GroupWithZero.Nat
import Mathlib.Data.List.DropRight

/-!
# The parser of the event stream

The live feed is a stream of server-sent events.  The parser takes the body in
whatever chunks the transport delivers and keeps the bytes of a line that has
not ended, with an offset before which they hold no newline.  What it returns
is what one would read byte by byte, so the chunks do not matter.
-/

namespace HfMount.Follow

open Utf8

/-- One event: its name and the joined data lines. -/
structure SseEvent where
  event : List Char
  data : List Char
  deriving DecidableEq

structure SseParser where
  buf : Bytes
  /-- Bytes before this offset hold no newline. -/
  scanned : Nat
  event : List Char
  data : List Char
  deriving DecidableEq

/-- The byte `\n`. -/
def newline : UInt8 := 10

/-- `str::split_once`, at a colon. -/
def splitOnce (line : List Char) : Option (List Char × List Char) :=
  match line.span (· ≠ ':') with
  | (field, _ :: value) => some (field, value)
  | (_, []) => none

/-- One leading space of a value is part of the framing. -/
def stripSpace : List Char → List Char
  | ' ' :: value => value
  | value => value

namespace SseParser

/-- `SseParser::default`. -/
def new : SseParser :=
  { buf := []
    scanned := 0
    event := []
    data := [] }

/-- What has been read of the event that is going on. -/
structure Pending where
  event : List Char
  data : List Char
  deriving DecidableEq

/-- The field of a line and its value. -/
def fieldParts (line : List Char) : List Char × List Char :=
  match splitOnce line with
  | some (field, value) => (field, stripSpace value)
  | none => (line, [])

/-- A line that is neither blank nor a comment. -/
def acceptField (pending : Pending) (line : List Char) : Pending :=
  let parts := fieldParts line
  if parts.1 = "event".toList then { pending with event := parts.2 }
  else if parts.1 = "data".toList then
    { pending with
      data := (if pending.data.isEmpty then [] else pending.data ++ ['\n']) ++
        parts.2 }
  else pending

/-- A line without its ending; a blank one dispatches the event. -/
def acceptLine (pending : Pending) (line : List Char) :
    List SseEvent × Pending :=
  if line.isEmpty then
    if !pending.event.isEmpty || !pending.data.isEmpty then
      ([⟨pending.event, pending.data⟩], ⟨[], []⟩)
    else ([], pending)
  else if line.head? = some ':' then ([], pending)
  else ([], acceptField pending line)

/-- The text of a line: carriage returns at its end belong to the ending. -/
def lineText (bytes : Bytes) : List Char :=
  (fromUtf8Lossy bytes).rdropWhile (· = '\r')

/-- The loop of `push`, which goes on while there is a newline past `scanned`;
`fuel` bounds the bytes that are left to scan. -/
def scan : Nat → SseParser → Nat → List SseEvent →
    SseParser × Nat × List SseEvent
  | 0, parser, consumed, events => (parser, consumed, events)
  | fuel + 1, parser, consumed, events =>
      match (parser.buf.drop parser.scanned).findIdx? (· = newline) with
      | none => (parser, consumed, events)
      | some position =>
          let stop := parser.scanned + position
          let accepted := acceptLine ⟨parser.event, parser.data⟩
            (lineText ((parser.buf.take stop).drop consumed))
          scan fuel
            { parser with
              scanned := stop + 1
              event := accepted.2.event
              data := accepted.2.data }
            (stop + 1) (events ++ accepted.1)

def push (parser : SseParser) (chunk : Bytes) : List SseEvent × SseParser :=
  let buf := parser.buf ++ chunk
  let (scanned, consumed, events) :=
    scan buf.length { parser with buf } 0 []
  (events,
    { scanned with
      buf := scanned.buf.drop consumed
      scanned := (scanned.buf.drop consumed).length })

/-- The chunks one after the other. -/
def pushAll (parser : SseParser) : List Bytes → List SseEvent × SseParser
  | [] => ([], parser)
  | chunk :: chunks =>
      let first := parser.push chunk
      let rest := pushAll first.2 chunks
      (first.1 ++ rest.1, rest.2)

/-! ## Reading byte by byte -/

/-- The line and the event that are going on. -/
structure Reader where
  line : Bytes
  pending : Pending

namespace Reader

def readByte (reader : Reader) (byte : UInt8) : List SseEvent × Reader :=
  if byte = newline then
    let accepted := acceptLine reader.pending (lineText reader.line)
    (accepted.1, ⟨[], accepted.2⟩)
  else ([], { reader with line := reader.line ++ [byte] })

def read (reader : Reader) : Bytes → List SseEvent × Reader
  | [] => ([], reader)
  | byte :: bytes =>
      let first := reader.readByte byte
      let rest := read first.2 bytes
      (first.1 ++ rest.1, rest.2)

@[simp] theorem read_nil (reader : Reader) : reader.read [] = ([], reader) :=
  rfl

theorem read_append (reader : Reader) (left right : Bytes) :
    reader.read (left ++ right) =
      ((reader.read left).1 ++ ((reader.read left).2.read right).1,
        ((reader.read left).2.read right).2) := by
  induction left generalizing reader with
  | nil => simp
  | cons byte bytes ih =>
      simp only [List.cons_append, read, ih, List.append_assoc]

/-- Bytes of one line wait for its end. -/
theorem read_line {bytes : Bytes} (line : newline ∉ bytes) (reader : Reader) :
    reader.read bytes =
      ([], { reader with line := reader.line ++ bytes }) := by
  induction bytes generalizing reader with
  | nil => simp
  | cons byte bytes ih =>
      have other : byte ≠ newline := fun same => line (same ▸ List.mem_cons_self)
      have rest : newline ∉ bytes := fun member =>
        line (List.mem_cons_of_mem _ member)
      simp only [read, readByte, if_neg other, ih rest, List.append_assoc,
        List.singleton_append, List.nil_append]

/-- A line that ends. -/
theorem read_newline {bytes : Bytes} (line : newline ∉ bytes)
    (reader : Reader) (rest : Bytes) :
    reader.read (bytes ++ newline :: rest) =
      let accepted := acceptLine reader.pending
        (lineText (reader.line ++ bytes))
      (accepted.1 ++ (Reader.read ⟨[], accepted.2⟩ rest).1,
        (Reader.read ⟨[], accepted.2⟩ rest).2) := by
  rw [read_append, read_line line]
  simp only [read, readByte, if_true, List.nil_append]

/-- The parser that waits for the same bytes. -/
def toParser (reader : Reader) : SseParser :=
  { buf := reader.line
    scanned := reader.line.length
    event := reader.pending.event
    data := reader.pending.data }

end Reader

/-! ## The loop reads what is left -/

theorem findIdx?_newline_eq_none {bytes : Bytes}
    (missing : bytes.findIdx? (· = newline) = none) : newline ∉ bytes := by
  intro member
  have other := List.findIdx?_eq_none_iff.mp missing newline member
  simp at other

/-- The bytes before the first newline are those of one line. -/
theorem findIdx?_newline_eq_some {bytes : Bytes} {position : Nat}
    (found : bytes.findIdx? (· = newline) = some position) :
    ∃ line rest, bytes = line ++ newline :: rest ∧ line.length = position ∧
      newline ∉ line := by
  obtain ⟨inside, here, before⟩ := List.findIdx?_eq_some_iff_getElem.mp found
  have byte : bytes[position] = newline := by simpa using here
  refine ⟨bytes.take position, bytes.drop (position + 1), ?_, ?_, ?_⟩
  · rw [← byte, ← List.drop_eq_getElem_cons inside, List.take_append_drop]
  · exact List.length_take_of_le (Nat.le_of_lt inside)
  · intro member
    obtain ⟨index, small, same⟩ := List.mem_take_iff_getElem.mp member
    have below : index < position := by omega
    simpa [same] using before index below

theorem scan_none {parser : SseParser} {consumed : Nat}
    {events : List SseEvent} {fuel : Nat}
    (missing : newline ∉ parser.buf.drop parser.scanned) :
    scan fuel parser consumed events = (parser, consumed, events) := by
  cases fuel with
  | zero => simp [scan]
  | succ fuel =>
      have none : (parser.buf.drop parser.scanned).findIdx? (· = newline) =
          none := by
        apply List.findIdx?_eq_none_iff.mpr
        intro byte member
        apply decide_eq_false
        rintro rfl
        exact missing member
      simp only [scan, none]

/-- What is before the offset is the line that is going on, what is after it is
to be read. -/
theorem scan_eq {fuel : Nat} {parser : SseParser}
    {events : List SseEvent} {before line rest : Bytes}
    (buf : parser.buf = before ++ line ++ rest)
    (scanned : parser.scanned = before.length + line.length)
    (enough : rest.length ≤ fuel) :
    let read := Reader.read ⟨line, ⟨parser.event, parser.data⟩⟩ rest
    let result := scan fuel parser before.length events
    result.2.2 = events ++ read.1 ∧
      result.1.buf.drop result.2.1 = read.2.line ∧
      result.1.event = read.2.pending.event ∧
      result.1.data = read.2.pending.data := by
  induction fuel generalizing parser events before line rest with
  | zero =>
      have empty : rest = [] := List.eq_nil_of_length_eq_zero (by omega)
      subst empty
      simp [scan, buf]
  | succ fuel ih =>
      have left : parser.buf.drop parser.scanned = rest := by
        rw [buf, scanned, ← List.length_append, List.drop_left]
      cases found : rest.findIdx? (· = newline) with
      | none =>
          have missing := findIdx?_newline_eq_none found
          rw [scan_none (by rwa [left]), Reader.read_line missing]
          simp [buf]
      | some position =>
          obtain ⟨bytes, others, rfl, rfl, here⟩ :=
            findIdx?_newline_eq_some found
          -- The loop goes on behind the newline, with an empty line.
          have stop : parser.scanned + bytes.length + 1 =
              (before ++ line ++ bytes ++ [newline]).length := by
            simp only [scanned, List.length_append, List.length_singleton]
          have taken : (parser.buf.take (parser.scanned + bytes.length)).drop
              before.length = line ++ bytes := by
            have cut : parser.buf =
                (before ++ (line ++ bytes)) ++ newline :: others := by
              simp [buf]
            have total : parser.scanned + bytes.length =
                (before ++ (line ++ bytes)).length := by
              simp [scanned, Nat.add_assoc]
            rw [cut, total, List.take_left, List.drop_left]
          have smaller : others.length ≤ fuel := by
            simp only [List.length_append, List.length_cons] at enough
            omega
          let accepted := acceptLine ⟨parser.event, parser.data⟩
            (lineText (line ++ bytes))
          obtain ⟨shown, dropped, event, data⟩ := @ih
            { parser with
              scanned := parser.scanned + bytes.length + 1
              event := accepted.2.event
              data := accepted.2.data }
            (events ++ accepted.1) (before ++ line ++ bytes ++ [newline]) []
            others (by simp [buf]) stop smaller
          rw [Reader.read_newline here]
          simp only [scan, left, found, taken]
          rw [← stop] at shown dropped event data
          refine ⟨?_, dropped, event, data⟩
          rw [shown, List.append_assoc]

/-- A chunk is read byte by byte. -/
theorem push_eq (reader : Reader) (chunk : Bytes) :
    reader.toParser.push chunk =
      ((reader.read chunk).1, (reader.read chunk).2.toParser) := by
  obtain ⟨shown, dropped, event, data⟩ := @scan_eq
    (reader.line ++ chunk).length
    { reader.toParser with buf := reader.line ++ chunk } [] [] reader.line
    chunk (by simp) (by simp [Reader.toParser]) (by simp)
  simp only [List.nil_append, List.length_nil] at shown dropped event data
  simp only [push]
  apply Prod.ext
  · exact shown
  · simp only [Reader.toParser] at dropped event data ⊢
    simp only [dropped, event, data]

theorem pushAll_eq (reader : Reader) (chunks : List Bytes) :
    reader.toParser.pushAll chunks =
      ((reader.read chunks.flatten).1,
        (reader.read chunks.flatten).2.toParser) := by
  induction chunks generalizing reader with
  | nil => simp [pushAll]
  | cons chunk chunks ih =>
      simp only [pushAll, push_eq, ih, List.flatten_cons, Reader.read_append]

theorem new_eq_toParser : new = Reader.toParser ⟨[], ⟨[], []⟩⟩ := rfl

/-- However a stream is cut, the same events come out of it, and the same
parser is left. -/
theorem pushAll_eq_push (chunks : List Bytes) :
    new.pushAll chunks = new.push chunks.flatten := by
  rw [new_eq_toParser, pushAll_eq, push_eq]

end SseParser

end HfMount.Follow
