import HfMount.Follow.SseParser

/-!
# The data lines of an event block

An event is sent as a block of lines: its name, its data lines, comments and
fields that the parser does not know, in any order, and a blank line.  The
separator between two data lines is put in when there is text before it, so
the empty lines at the front of the data are lost.
-/

namespace HfMount.Follow

open Utf8

/-- How the value of a field follows its name on the wire. -/
inductive Framing where
  | bare
  | tight
  | spaced
  deriving DecidableEq

namespace Framing

def text (field value : List Char) : Framing → List Char
  | .bare => field
  | .tight => field ++ ':' :: value
  | .spaced => field ++ ':' :: ' ' :: value

/-- A bare name has no value, and a space that follows the colon at once is not
part of the value. -/
def Fits (value : List Char) : Framing → Prop
  | .bare => value = []
  | .tight => value.head? ≠ some ' '
  | .spaced => True

end Framing

/-- Carriage returns at the end belong to the ending of a line. -/
def trimReturns (text : List Char) : List Char :=
  text.rdropWhile (· = '\r')

inductive BlockLine where
  | event (framing : Framing) (name : List Char)
  | data (framing : Framing) (value : List Char)
  | comment (text : List Char)
  | unknown (text : List Char)

namespace BlockLine

def text : BlockLine → List Char
  | .event framing name => framing.text "event".toList name
  | .data framing value => framing.text "data".toList value
  | .comment text => ':' :: text
  | .unknown text => text

/-- The name before the colon of a line. -/
def fieldName (text : List Char) : List Char :=
  text.takeWhile (· ≠ ':')

def Fits : BlockLine → Prop
  | .event framing name => framing.Fits name
  | .data framing value => framing.Fits value
  | .comment _ => True
  | .unknown text =>
      fieldName (trimReturns text) ∉ [[], "event".toList, "data".toList]

def eventName : BlockLine → Option (List Char)
  | .event _ name => some name
  | _ => none

def dataValue : BlockLine → Option (List Char)
  | .data _ value => some value
  | _ => none

end BlockLine

/-- A block: each line has its carriage returns before the newline. -/
structure Block where
  lines : List (BlockLine × Nat)
  returns : Nat
  name : List Char
  values : List (List Char)
  fits : ∀ line ∈ lines, line.1.Fits
  newlineFree : ∀ line ∈ lines, '\n' ∉ line.1.text
  named : lines.filterMap (·.1.eventName) = [name]
  valued : lines.filterMap (·.1.dataValue) = values
  nonempty : values ≠ []

namespace Block

/-- A line and its ending. -/
def lineBytes (text : List Char) (returns : Nat) : Bytes :=
  utf8 (text ++ List.replicate returns '\r') ++ [newline]

def linesBytes (lines : List (BlockLine × Nat)) : Bytes :=
  lines.flatMap fun line => lineBytes line.1.text line.2

def bytes (block : Block) : Bytes :=
  linesBytes block.lines ++ lineBytes [] block.returns

/-- The data of the event: a newline between two consecutive values. -/
def joined (values : List (List Char)) : List Char :=
  ['\n'].intercalate values

end Block

/-! ## Lines and their endings -/

@[simp] theorem trimReturns_nil : trimReturns [] = [] := rfl

theorem trimReturns_append_returns (text : List Char) (returns : Nat) :
    trimReturns (text ++ List.replicate returns '\r') = trimReturns text := by
  induction returns with
  | zero => simp
  | succ returns ih =>
      rw [List.replicate_succ', ← List.append_assoc, trimReturns,
        List.rdropWhile_concat_pos _ _ _ (by simp)]
      exact ih

/-- Text before the value that ends otherwise stays. -/
theorem trimReturns_append {front : List Char} (value : List Char)
    (other : front.getLast? ≠ some '\r') :
    trimReturns (front ++ value) = front ++ trimReturns value := by
  induction value using List.reverseRecOn with
  | nil =>
      rw [List.append_nil, trimReturns_nil, List.append_nil]
      apply List.rdropWhile_eq_self_iff.mpr
      intro nonempty same
      apply other
      rw [List.getLast?_eq_some_getLast nonempty]
      simpa using same
  | append_singleton value last ih =>
      rw [← List.append_assoc, trimReturns, trimReturns]
      by_cases same : last = '\r'
      · rw [List.rdropWhile_concat_pos _ _ _ (by simpa using same),
          List.rdropWhile_concat_pos _ _ _ (by simpa using same)]
        exact ih
      · rw [List.rdropWhile_concat_neg _ _ _ (by simpa using same),
          List.rdropWhile_concat_neg _ _ _ (by simpa using same),
          List.append_assoc]

theorem isPrefix_trimReturns (text : List Char) : trimReturns text <+: text :=
  List.rdropWhile_prefix _ text

theorem lineText_utf8 (text : List Char) (returns : Nat) :
    SseParser.lineText (utf8 (text ++ List.replicate returns '\r')) =
      trimReturns text := by
  rw [SseParser.lineText, fromUtf8Lossy_utf8]
  exact trimReturns_append_returns text returns

theorem newline_not_mem_line {text : List Char} (free : '\n' ∉ text)
    (returns : Nat) :
    newline ∉ utf8 (text ++ List.replicate returns '\r') := by
  rw [mem_utf8_ascii (by decide)]
  intro member
  rcases List.mem_append.mp member with inside | ending
  · exact free inside
  · exact absurd (List.eq_of_mem_replicate ending) (by decide)

/-! ## What a line does to the event that is going on -/

open SseParser

theorem splitOnce_colon {field : List Char} (free : ':' ∉ field)
    (value : List Char) :
    splitOnce (field ++ ':' :: value) = some (field, value) := by
  have whole : ∀ char ∈ field, decide (char ≠ ':') = true := by
    intro char member
    apply decide_eq_true
    rintro rfl
    exact free member
  have span : (field ++ ':' :: value).span (· ≠ ':') =
      (field, ':' :: value) := by
    rw [List.span_eq_takeWhile_dropWhile, List.takeWhile_append_of_pos whole,
      List.dropWhile_append_of_pos whole]
    simp
  rw [splitOnce, span]

theorem splitOnce_none {line : List Char} (free : ':' ∉ line) :
    splitOnce line = none := by
  have whole : ∀ char ∈ line, decide (char ≠ ':') = true := by
    intro char member
    apply decide_eq_true
    rintro rfl
    exact free member
  have span : line.span (· ≠ ':') = (line, []) := by
    rw [List.span_eq_takeWhile_dropWhile, List.takeWhile_eq_self_iff.mpr whole,
      List.dropWhile_eq_nil_iff.mpr whole]
  rw [splitOnce, span]

/-- Whatever follows it, the field is what is before the first colon. -/
theorem fieldParts_fst (line : List Char) :
    (fieldParts line).1 = BlockLine.fieldName line := by
  have split : BlockLine.fieldName line ++ line.dropWhile (· ≠ ':') = line :=
    List.takeWhile_append_dropWhile
  have free : ':' ∉ BlockLine.fieldName line := by
    intro member
    exact absurd (List.mem_takeWhile_imp member) (by simp)
  cases tail : line.dropWhile (· ≠ ':') with
  | nil =>
      rw [tail, List.append_nil] at split
      rw [split] at free ⊢
      rw [fieldParts, splitOnce_none free]
  | cons colon value =>
      have first : colon = ':' := by
        have stopped := List.head?_dropWhile_not (· ≠ ':') line
        rw [tail] at stopped
        simpa using stopped
      rw [tail, first] at split
      rw [← split, fieldParts, splitOnce_colon free, split]

theorem stripSpace_other {value : List Char} (other : value.head? ≠ some ' ') :
    stripSpace value = value := by
  cases value with
  | nil => rfl
  | cons first value =>
      have different : first ≠ ' ' := by
        rintro rfl
        exact other rfl
      simp [stripSpace, different]

theorem head?_trimReturns {value : List Char} {char : Char}
    (other : value.head? ≠ some char) :
    (trimReturns value).head? ≠ some char := by
  intro first
  apply other
  obtain ⟨rest, same⟩ := isPrefix_trimReturns value
  rw [← same, List.head?_append, first]
  rfl

/-- A field that is framed is read back, its value without the carriage
returns. -/
theorem fieldParts_framed {framing : Framing} {field value : List Char}
    (fits : framing.Fits value) (free : ':' ∉ field)
    (ends : field.getLast? ≠ some '\r') :
    fieldParts (trimReturns (framing.text field value)) =
      (field, trimReturns value) := by
  cases framing with
  | bare =>
      have none : value = [] := fits
      have whole := trimReturns_append [] ends
      rw [trimReturns_nil, List.append_nil] at whole
      rw [Framing.text, whole, fieldParts, splitOnce_none free, none,
        trimReturns_nil]
  | tight =>
      have colon : (field ++ [':']).getLast? ≠ some '\r' := by simp
      have trimmed := trimReturns_append value colon
      simp only [List.append_assoc, List.singleton_append] at trimmed
      rw [Framing.text, trimmed, fieldParts, splitOnce_colon free]
      simp only [stripSpace_other (head?_trimReturns fits)]
  | spaced =>
      have space : (field ++ [':', ' ']).getLast? ≠ some '\r' := by simp
      have trimmed := trimReturns_append value space
      simp only [List.append_assoc, List.cons_append, List.nil_append]
        at trimmed
      rw [Framing.text, trimmed, fieldParts, splitOnce_colon free]
      rfl

/-- Data lines are separated where there is text already. -/
def joinData (data value : List Char) : List Char :=
  (if data.isEmpty then [] else data ++ ['\n']) ++ value

def BlockLine.accept (pending : Pending) : BlockLine → Pending
  | .event _ name => { pending with event := trimReturns name }
  | .data _ value =>
      { pending with data := joinData pending.data (trimReturns value) }
  | .comment _ => pending
  | .unknown _ => pending

theorem acceptLine_field {pending : Pending} {line : List Char}
    (named : (fieldParts line).1 ≠ []) :
    acceptLine pending line = ([], acceptField pending line) := by
  rw [fieldParts_fst] at named
  cases line with
  | nil => simp [BlockLine.fieldName] at named
  | cons first line =>
      have other : first ≠ ':' := by
        rintro rfl
        simp [BlockLine.fieldName] at named
      simp [acceptLine, other]

theorem acceptLine_text {line : BlockLine} (fits : line.Fits)
    (pending : Pending) :
    acceptLine pending (trimReturns line.text) = ([], line.accept pending) := by
  cases line with
  | event framing name =>
      have parts : fieldParts (trimReturns
          (framing.text "event".toList name)) =
            ("event".toList, trimReturns name) :=
        fieldParts_framed fits (by decide) (by decide)
      rw [BlockLine.text, acceptLine_field (by rw [parts]; simp),
        acceptField, parts]
      simp [BlockLine.accept]
  | data framing value =>
      have parts : fieldParts (trimReturns
          (framing.text "data".toList value)) =
            ("data".toList, trimReturns value) :=
        fieldParts_framed fits (by decide) (by decide)
      rw [BlockLine.text, acceptLine_field (by rw [parts]; simp),
        acceptField, parts]
      simp [BlockLine.accept, joinData]
  | comment text =>
      have colon : [':'].getLast? ≠ some '\r' := by decide
      have trimmed := trimReturns_append text colon
      rw [List.singleton_append, List.singleton_append] at trimmed
      rw [BlockLine.text, trimmed]
      simp [acceptLine, BlockLine.accept]
  | unknown text =>
      simp only [BlockLine.Fits, List.mem_cons, List.not_mem_nil, or_false,
        not_or, ← fieldParts_fst] at fits
      obtain ⟨named, notEvent, notData⟩ := fits
      rw [BlockLine.text, acceptLine_field named, acceptField]
      simp only [if_neg notEvent, if_neg notData, BlockLine.accept]

/-! ## The whole block -/

theorem read_line {text : List Char} (free : '\n' ∉ text) (returns : Nat)
    (pending : Pending) (rest : Bytes) :
    let accepted := acceptLine pending (trimReturns text)
    Reader.read ⟨[], pending⟩ (Block.lineBytes text returns ++ rest) =
      (accepted.1 ++ (Reader.read ⟨[], accepted.2⟩ rest).1,
        (Reader.read ⟨[], accepted.2⟩ rest).2) := by
  rw [Block.lineBytes, List.append_assoc, List.singleton_append,
    Reader.read_newline (newline_not_mem_line free returns),
    List.nil_append, lineText_utf8]

/-- The lines of a block dispatch nothing. -/
theorem read_lines {lines : List (BlockLine × Nat)}
    (fits : ∀ line ∈ lines, line.1.Fits)
    (free : ∀ line ∈ lines, '\n' ∉ line.1.text) (pending : Pending)
    (rest : Bytes) :
    Reader.read ⟨[], pending⟩ (Block.linesBytes lines ++ rest) =
      Reader.read ⟨[], (lines.map (·.1)).foldl (fun pending line =>
        line.accept pending) pending⟩ rest := by
  induction lines generalizing pending with
  | nil => simp [Block.linesBytes]
  | cons line lines ih =>
      have first := acceptLine_text (fits line List.mem_cons_self) pending
      have others := ih
        (fun other member => fits other (List.mem_cons_of_mem _ member))
        (fun other member => free other (List.mem_cons_of_mem _ member))
        (line.1.accept pending)
      rw [Block.linesBytes, List.flatMap_cons, List.append_assoc,
        read_line (free line List.mem_cons_self), first]
      simp only [List.nil_append, List.map_cons, List.foldl_cons]
      exact others

theorem foldl_accept_data (lines : List BlockLine) (pending : Pending) :
    (lines.foldl (fun pending line => line.accept pending) pending).data =
      ((lines.filterMap (·.dataValue)).map trimReturns).foldl joinData
        pending.data := by
  induction lines generalizing pending with
  | nil => simp
  | cons line lines ih =>
      rw [List.foldl_cons, ih]
      cases line <;> simp [BlockLine.accept, BlockLine.dataValue]

theorem foldl_accept_event (lines : List BlockLine) (pending : Pending) :
    (lines.foldl (fun pending line => line.accept pending) pending).event =
      ((lines.filterMap (·.eventName)).map trimReturns).getLast?.getD
        pending.event := by
  induction lines generalizing pending with
  | nil => simp
  | cons line lines ih =>
      rw [List.foldl_cons, ih]
      cases line with
      | event framing name =>
          simp [BlockLine.accept, BlockLine.eventName, List.getLast?_cons]
      | data framing value => simp [BlockLine.accept, BlockLine.eventName]
      | comment text => simp [BlockLine.accept, BlockLine.eventName]
      | unknown text => simp [BlockLine.accept, BlockLine.eventName]

namespace Block

/-- The data that the parser puts together. -/
def parsed (block : Block) : List Char :=
  (block.values.map trimReturns).foldl joinData []

/-- A block dispatches one event, unless its name and its data are empty. -/
theorem push_bytes (block : Block) :
    (SseParser.new.push block.bytes).1 =
      if trimReturns block.name = [] ∧ block.parsed = [] then []
      else [⟨trimReturns block.name, block.parsed⟩] := by
  have event := foldl_accept_event (block.lines.map (·.1)) ⟨[], []⟩
  have data := foldl_accept_data (block.lines.map (·.1)) ⟨[], []⟩
  have ended := read_lines block.fits block.newlineFree ⟨[], []⟩
    (lineBytes [] block.returns)
  generalize (block.lines.map (·.1)).foldl _ _ = pending at event data ended
  simp only [List.filterMap_map, Function.comp_def, block.named, block.valued]
    at event data
  have read : pending = ⟨trimReturns block.name, block.parsed⟩ := by
    cases pending
    simp_all [parsed]
  have blank := @read_line [] List.not_mem_nil block.returns pending []
  rw [List.append_nil, trimReturns_nil, read] at blank
  rw [new_eq_toParser, push_eq, bytes, ended, read, blank]
  by_cases empty : trimReturns block.name = [] ∧ block.parsed = []
  · simp [acceptLine, empty]
  · rw [if_neg empty]
    simp only [acceptLine]
    simp [Classical.not_and_iff_not_or_not.mp empty]

end Block

/-! ## Which values are joined faithfully -/

namespace Block

theorem joined_cons (value : List Char) (values : List (List Char)) :
    joined (value :: values) = value ++ values.flatMap ('\n' :: ·) := by
  induction values generalizing value with
  | nil => simp [joined]
  | cons next values ih =>
      rw [joined, List.intercalate_cons_cons, ← joined, ih next]
      simp

/-- Behind text that is not empty, every value has its separator. -/
theorem foldl_joinData {data : List Char} (nonempty : data ≠ [])
    (values : List (List Char)) :
    values.foldl joinData data = data ++ values.flatMap ('\n' :: ·) := by
  induction values generalizing data with
  | nil => simp
  | cons value values ih =>
      have separated : joinData data value = data ++ '\n' :: value := by
        simp [joinData, nonempty]
      rw [List.foldl_cons, separated, ih (by simp)]
      simp

theorem foldl_joinData_cons {value : List Char} (nonempty : value ≠ [])
    (values : List (List Char)) :
    (value :: values).foldl joinData [] = joined (value :: values) := by
  rw [List.foldl_cons, joined_cons]
  exact foldl_joinData (by simpa [joinData] using nonempty) values

theorem foldl_joinData_nil (values : List (List Char)) :
    ([] :: values).foldl joinData [] = values.foldl joinData [] := by
  simp [joinData]

/-- The parser adds nothing to what is to be joined. -/
theorem length_foldl_joinData_le (values : List (List Char)) :
    (values.foldl joinData []).length ≤ (joined values).length := by
  induction values with
  | nil => simp
  | cons value values ih =>
      by_cases empty : value = []
      · subst empty
        rw [foldl_joinData_nil]
        apply Nat.le_trans ih
        cases values with
        | nil => simp [joined]
        | cons next values => simp [joined]
      · rw [foldl_joinData_cons empty]

theorem length_joined (values : List (List Char)) :
    (joined values).length =
      (values.map List.length).sum + (values.length - 1) := by
  cases values with
  | nil => simp [joined]
  | cons value values =>
      have separated : (values.flatMap ('\n' :: ·)).length =
          (values.map List.length).sum + values.length := by
        induction values with
        | nil => simp
        | cons next values ih =>
            simp only [List.flatMap_cons, List.length_append, ih,
              List.length_cons, List.map_cons, List.sum_cons]
            omega
      rw [joined_cons, List.length_append, separated]
      simp only [List.map_cons, List.sum_cons, List.length_cons]
      omega

theorem sum_length_trimReturns_le (values : List (List Char)) :
    ((values.map trimReturns).map List.length).sum ≤
      (values.map List.length).sum := by
  induction values with
  | nil => simp
  | cons value values ih =>
      have shorter := (isPrefix_trimReturns value).length_le
      simp only [List.map_cons, List.sum_cons]
      omega

/-- Values that lose no character end in no carriage return. -/
theorem map_trimReturns_of_sum {values : List (List Char)}
    (same : (values.map List.length).sum ≤
      ((values.map trimReturns).map List.length).sum) :
    ∀ value ∈ values, trimReturns value = value := by
  induction values with
  | nil => simp
  | cons value values ih =>
      have shorter := (isPrefix_trimReturns value).length_le
      have others := sum_length_trimReturns_le values
      simp only [List.map_cons, List.sum_cons] at same
      intro other member
      rcases List.mem_cons.mp member with rfl | rest
      · exact (isPrefix_trimReturns other).eq_of_length (by omega)
      · exact ih (by omega) other rest

/-- The first value is needed for the separators behind it. -/
theorem foldl_joinData_eq_joined {value : List Char}
    {values : List (List Char)} :
    (value :: values).foldl joinData [] = joined (value :: values) ↔
      value ≠ [] ∨ values = [] := by
  by_cases empty : value = []
  · subst empty
    rw [foldl_joinData_nil]
    cases values with
    | nil => simp [joined]
    | cons next values =>
        have bound := length_foldl_joinData_le (next :: values)
        simp only [ne_eq, not_true_eq_false, reduceCtorEq, or_self, iff_false]
        intro same
        rw [same, joined, List.intercalate_cons_cons, ← joined] at bound
        simp only [List.nil_append, List.length_append,
          List.length_singleton] at bound
        omega
  · simp [foldl_joinData_cons empty, empty]

theorem map_trimReturns {values : List (List Char)}
    (trimmed : ∀ value ∈ values, trimReturns value = value) :
    values.map trimReturns = values := by
  rw [List.map_congr_left trimmed, List.map_id']

theorem parsed_eq_joined (block : Block) :
    block.parsed = joined block.values ↔
      (∀ value ∈ block.values, trimReturns value = value) ∧
        (block.values.head? ≠ some [] ∨ block.values.length = 1) := by
  have first : (∀ value ∈ block.values, trimReturns value = value) →
      (block.parsed = joined block.values ↔
        (block.values.head? ≠ some [] ∨ block.values.length = 1)) := by
    intro trimmed
    rw [parsed, map_trimReturns trimmed]
    cases split : block.values with
    | nil => exact absurd split block.nonempty
    | cons value values =>
        rw [foldl_joinData_eq_joined]
        simp
  constructor
  · intro same
    have bound := length_foldl_joinData_le (block.values.map trimReturns)
    rw [← parsed, same, length_joined, length_joined, List.length_map] at bound
    have trimmed := map_trimReturns_of_sum
      (Nat.le_of_add_le_add_right bound)
    exact ⟨trimmed, (first trimmed).mp same⟩
  · rintro ⟨trimmed, shape⟩
    exact (first trimmed).mpr shape

theorem joined_eq_nil {values : List (List Char)} (nonempty : values ≠ []) :
    joined values = [] ↔ values = [[]] := by
  cases values with
  | nil => exact absurd rfl nonempty
  | cons value values =>
      rw [joined_cons]
      cases values <;> simp

/-- The event of a block carries the joined values exactly when no value ends
in a carriage return, and the first value is not empty or is alone in a block
with a name. -/
theorem dispatches_joined_iff (block : Block) :
    (SseParser.new.push block.bytes).1.map (·.data) = [joined block.values] ↔
      (∀ value ∈ block.values, trimReturns value = value) ∧
        (block.values.head? ≠ some [] ∨
          (block.values.length = 1 ∧ trimReturns block.name ≠ [])) := by
  have dispatched : (SseParser.new.push block.bytes).1.map (·.data) =
      [joined block.values] ↔
        ¬(trimReturns block.name = [] ∧ block.parsed = []) ∧
          block.parsed = joined block.values := by
    rw [push_bytes]
    split
    · rename_i silent
      simp [silent]
    · rename_i sent
      simp [sent]
  rw [dispatched]
  constructor
  · rintro ⟨sent, same⟩
    obtain ⟨trimmed, shape⟩ := (parsed_eq_joined block).mp same
    refine ⟨trimmed, ?_⟩
    by_cases first : block.values.head? = some []
    · have alone : block.values.length = 1 :=
        shape.resolve_left (not_not_intro first)
      have empty : block.values = [[]] := by
        obtain ⟨value, only⟩ := List.length_eq_one_iff.mp alone
        rw [only] at first ⊢
        simpa using first
      refine Or.inr ⟨alone, fun unnamed => sent ⟨unnamed, ?_⟩⟩
      rw [same, empty, joined_eq_nil (List.cons_ne_nil _ _)]
    · exact Or.inl first
  · rintro ⟨trimmed, shape⟩
    have same : block.parsed = joined block.values := by
      apply (parsed_eq_joined block).mpr
      exact ⟨trimmed, shape.imp_right And.left⟩
    refine ⟨?_, same⟩
    rintro ⟨unnamed, empty⟩
    rw [same, joined_eq_nil block.nonempty] at empty
    rcases shape with first | ⟨_, named⟩
    · exact first (by rw [empty]; rfl)
    · exact named unnamed

/-- Two data lines, the first of them empty. -/
def leadingEmpty : Block :=
  { lines :=
      [(.event .spaced ['x'], 0), (.data .bare [], 0), (.data .spaced ['a'], 0)]
    returns := 0
    name := ['x']
    values := [[], ['a']]
    fits := by simp [BlockLine.Fits, Framing.Fits]
    newlineFree := by decide
    named := rfl
    valued := rfl
    nonempty := List.cons_ne_nil _ _ }

theorem leadingEmpty_lost :
    ¬∀ block : Block, (SseParser.new.push block.bytes).1.map (·.data) =
      [joined block.values] := by
  intro faithful
  have joins := faithful leadingEmpty
  rw [push_bytes] at joins
  exact absurd joins (by decide)

end Block

end HfMount.Follow
