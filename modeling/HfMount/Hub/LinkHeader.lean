import HfMount.Lib.TextSearch

/-!
# The link to the next page

A long listing comes in pages, and the `Link` header of a page names the next
one.  The header is cut at its commas before the angle brackets are looked at,
and each bracket is looked for by itself.
-/

namespace HfMount.Hub

open Text

/-! ## The source -/

def relNext : List Char := "rel=\"next\"".toList

/-- Where the brackets are, in a part that passes the test of the loop. -/
def brackets (part : List Char) : Option (Nat × Nat) :=
  if relNext <:+: part then do
    let start ← part.findIdx? (· == '<')
    let stop ← part.findIdx? (· == '>')
    some (start, stop)
  else none

/-- The loop over the parts. -/
def parseParts : List (List Char) → Option (Option (List Char))
  | [] => some none
  | part :: parts =>
      match brackets (trim part) with
      | some (start, stop) =>
          (slice (trim part) (start + 1) stop).map some
      | none => parseParts parts

/-- `parse_link_next`; the outer `none` is a panic. -/
def parseLinkNext (header : List Char) : Option (Option (List Char)) :=
  parseParts (header.splitOn ',')

/-! ## One part -/

/-- The part has the relation and both brackets. -/
def Looks (part : List Char) : Prop :=
  relNext <:+: part ∧ '<' ∈ part ∧ '>' ∈ part

instance (part : List Char) : Decidable (Looks part) :=
  inferInstanceAs (Decidable (_ ∧ _))

/-- The text between the first brackets of a part. -/
structure Quotes (part text : List Char) : Prop where
  split : ∃ before after, part = before ++ '<' :: (text ++ '>' :: after) ∧
    '<' ∉ before ∧ '>' ∉ before ∧ '>' ∉ text

/-- The closing bracket comes first. -/
structure Crossed (part : List Char) : Prop where
  split : ∃ before between after,
    part = before ++ '>' :: (between ++ '<' :: after) ∧
      '>' ∉ before ∧ '<' ∉ before ∧ '<' ∉ between

theorem looks_cases {part : List Char} (looks : Looks part) :
    (∃ text, Quotes part text) ∨ Crossed part := by
  obtain ⟨_, opening, closing⟩ := looks
  obtain ⟨before, after, rfl, first⟩ := List.eq_append_cons_of_mem opening
  by_cases early : '>' ∈ before
  · obtain ⟨before, between, rfl, first'⟩ :=
      List.eq_append_cons_of_mem early
    apply Or.inr
    refine ⟨before, between, after, by simp, first', ?_, ?_⟩
    · intro member
      exact first (by simp [member])
    · intro member
      exact first (by simp [member])
  · have later : '>' ∈ after := by simpa [early] using closing
    obtain ⟨text, after, rfl, first'⟩ := List.eq_append_cons_of_mem later
    exact Or.inl ⟨text, before, after, rfl, first, early, first'⟩

theorem Quotes.brackets {part text : List Char} (quotes : Quotes part text)
    (rel : relNext <:+: part) :
    ∃ start stop, brackets part = some (start, stop) ∧
      slice part (start + 1) stop = some text := by
  obtain ⟨before, after, rfl, noOpening, noClosing, inside⟩ := quotes.split
  have closing : '>' ∉ before ++ '<' :: text := by simp [noClosing, inside]
  have same : before ++ '<' :: (text ++ '>' :: after) =
      (before ++ '<' :: text) ++ '>' :: after := by simp
  refine ⟨before.length, (before ++ '<' :: text).length, ?_, ?_⟩
  · rw [Hub.brackets, if_pos rel, findIdx?_append_cons noOpening, same,
      findIdx?_append_cons closing]
    rfl
  · rw [slice, same, if_pos (by simp), List.take_left]
    have opened : before ++ '<' :: text = (before ++ ['<']) ++ text := by simp
    rw [opened, List.drop_left' (by simp)]

theorem Crossed.brackets {part : List Char} (crossed : Crossed part)
    (rel : relNext <:+: part) :
    ∃ start stop, brackets part = some (start, stop) ∧
      slice part (start + 1) stop = none := by
  obtain ⟨before, between, after, rfl, noClosing, noOpening, inside⟩ :=
    crossed.split
  have opening : '<' ∉ before ++ '>' :: between := by simp [noOpening, inside]
  have same : before ++ '>' :: (between ++ '<' :: after) =
      (before ++ '>' :: between) ++ '<' :: after := by simp
  refine ⟨(before ++ '>' :: between).length, before.length, ?_, ?_⟩
  · rw [Hub.brackets, if_pos rel, findIdx?_append_cons noClosing, same,
      findIdx?_append_cons opening]
    rfl
  · rw [slice, if_neg]
    simp only [List.length_append, List.length_cons, Bool.and_eq_true,
      decide_eq_true_eq]
    omega

theorem brackets_of_not_looks {part : List Char} (other : ¬ Looks part) :
    brackets part = none := by
  unfold Looks at other
  unfold brackets
  split <;> rename_i rel
  · by_cases opening : '<' ∈ part
    · have none : part.findIdx? (· == '>') = none := by
        rw [List.findIdx?_eq_none_iff]
        intro c member
        simp only [beq_eq_false_iff_ne]
        rintro rfl
        exact other ⟨rel, opening, member⟩
      simp [none]
    · have none : part.findIdx? (· == '<') = none := by
        rw [List.findIdx?_eq_none_iff]
        intro c member
        simp only [beq_eq_false_iff_ne]
        rintro rfl
        exact opening member
      simp [none]
  · rfl

/-! ## Blanks around a part -/

theorem visible_relNext : ∀ c ∈ relNext, isWhitespace c = false := by
  have none : relNext.any isWhitespace = false := by decide
  simpa using none

theorem looks_padded {blank trail : List Char} (lead : Blank blank)
    (behind : Blank trail) (part : List Char) :
    Looks (blank ++ part ++ trail) ↔ Looks part := by
  have apart : ∀ {text : List Char}, Blank text → ∀ c ∈ relNext, c ∉ text :=
    fun isBlank c member => isBlank.not_mem (visible_relNext c member)
  have bracket : ∀ {c : Char}, isWhitespace c = false →
      (c ∈ blank ++ part ++ trail ↔ c ∈ part) := by
    intro c visible
    simp [lead.not_mem visible, behind.not_mem visible]
  unfold Looks
  rw [infix_append_blank (by decide) (apart behind),
    infix_blank_append (by decide) (apart lead), bracket (by decide),
    bracket (by decide)]

theorem Quotes.padded {blank trail part text : List Char} (lead : Blank blank)
    (quotes : Quotes part text) : Quotes (blank ++ part ++ trail) text := by
  obtain ⟨before, after, rfl, noOpening, noClosing, inside⟩ := quotes.split
  refine ⟨blank ++ before, after ++ trail, by simp, ?_, ?_, inside⟩
  · simp [lead.not_mem (c := '<') (by decide), noOpening]
  · simp [lead.not_mem (c := '>') (by decide), noClosing]

theorem Crossed.padded {blank trail part : List Char} (lead : Blank blank)
    (crossed : Crossed part) : Crossed (blank ++ part ++ trail) := by
  obtain ⟨before, between, after, rfl, noClosing, noOpening, inside⟩ :=
    crossed.split
  refine ⟨blank ++ before, between, after ++ trail, by simp, ?_, ?_, inside⟩
  · simp [lead.not_mem (c := '>') (by decide), noClosing]
  · simp [lead.not_mem (c := '<') (by decide), noOpening]

/-! ## The loop -/

theorem Quotes.unique {part left right : List Char} (rel : relNext <:+: part)
    (first : Quotes part left) (second : Quotes part right) : left = right := by
  obtain ⟨start, stop, found, sliced⟩ := first.brackets rel
  obtain ⟨start', stop', found', sliced'⟩ := second.brackets rel
  obtain ⟨rfl, rfl⟩ :=
    Prod.mk.inj (Option.some.inj (found.symm.trans found'))
  exact Option.some.inj (sliced.symm.trans sliced')

theorem Crossed.not_quotes {part text : List Char} (rel : relNext <:+: part)
    (crossed : Crossed part) : ¬ Quotes part text := by
  intro quotes
  obtain ⟨start, stop, found, sliced⟩ := crossed.brackets rel
  obtain ⟨start', stop', found', sliced'⟩ := quotes.brackets rel
  obtain ⟨rfl, rfl⟩ :=
    Prod.mk.inj (Option.some.inj (found.symm.trans found'))
  rw [sliced] at sliced'
  cases sliced'

theorem looks_trim (part : List Char) : Looks (trim part) ↔ Looks part := by
  obtain ⟨blank, trail, lead, behind, same⟩ := trim_eq part
  have padded := looks_padded lead behind (trim part)
  rw [← same] at padded
  exact padded.symm

theorem parseParts_cons_of_not_looks {part : List Char} (other : ¬ Looks part)
    (parts : List (List Char)) :
    parseParts (part :: parts) = parseParts parts := by
  rw [parseParts, brackets_of_not_looks (mt (looks_trim part).mp other)]

/-- The first part that passes the test decides. -/
structure Decides (part : List Char) (parts : List (List Char)) : Prop where
  found : ∀ text, parseParts parts = some (some text) ↔ Quotes part text
  ends : parseParts parts ≠ some none

theorem decides_cons {part : List Char} (looks : Looks part)
    (parts : List (List Char)) : Decides part (part :: parts) := by
  have rel := looks.1
  have looksTrim := (looks_trim part).mpr looks
  obtain ⟨blank, trail, lead, _, same⟩ := trim_eq part
  rcases looks_cases looksTrim with ⟨text, quotes⟩ | crossed
  · obtain ⟨start, stop, found, sliced⟩ := quotes.brackets looksTrim.1
    have whole : Quotes part text := same ▸ quotes.padded lead
    constructor
    · intro other
      simp only [parseParts, found, sliced, Option.map_some, Option.some.injEq]
      constructor
      · intro equal
        exact equal ▸ whole
      · intro quotesOther
        exact whole.unique rel quotesOther
    · simp [parseParts, found, sliced]
  · obtain ⟨start, stop, found, sliced⟩ := crossed.brackets looksTrim.1
    have whole : Crossed part := same ▸ crossed.padded lead
    constructor
    · intro other
      simp [parseParts, found, sliced, whole.not_quotes rel]
    · simp [parseParts, found, sliced]

theorem parseParts_of_find (parts : List (List Char)) :
    (parts.find? (Looks ·) = none → parseParts parts = some none) ∧
      ∀ part, parts.find? (Looks ·) = some part → Decides part parts := by
  induction parts with
  | nil => exact ⟨fun _ => rfl, fun _ found => by cases found⟩
  | cons first parts ih =>
      by_cases looks : Looks first
      · simp only [List.find?_cons, looks, decide_true, reduceCtorEq,
          Option.some.injEq, false_implies, true_and]
        rintro part rfl
        exact decides_cons looks parts
      · have skip := parseParts_cons_of_not_looks looks parts
        simp only [List.find?_cons, looks, decide_false]
        refine ⟨fun none => skip.trans (ih.1 none), ?_⟩
        intro part found
        obtain ⟨texts, ends⟩ := ih.2 part found
        constructor
        · rw [skip]
          exact texts
        · rw [skip]
          exact ends

/-! ## Headers -/

inductive LinkValue where
  | token (text : List Char)
  | quoted (text : List Char)
  deriving DecidableEq

structure LinkParam where
  name : List Char
  value : Option LinkValue
  deriving DecidableEq

/-- An element of a `Link` header. -/
structure LinkElement where
  uri : List Char
  params : List LinkParam
  brackets : '<' ∉ uri ∧ '>' ∉ uri

/-- Quotes and backslashes are escaped in a quoted value. -/
def escaped (text : List Char) : List Char :=
  text.flatMap fun c => if c = '"' || c = '\\' then ['\\', c] else [c]

def LinkValue.text : LinkValue → List Char
  | .token text => text
  | .quoted text => '"' :: escaped text ++ ['"']

def LinkParam.text (param : LinkParam) : List Char :=
  match param.value with
  | none => param.name
  | some value => param.name ++ '=' :: value.text

/-- The parameter `rel="next"`. -/
def LinkParam.isNext (param : LinkParam) : Bool :=
  param = ⟨"rel".toList, some (.quoted "next".toList)⟩

namespace LinkElement

def paramsText (element : LinkElement) : List Char :=
  element.params.flatMap fun param => ';' :: ' ' :: param.text

def text (element : LinkElement) : List Char :=
  '<' :: (element.uri ++ '>' :: element.paramsText)

def hasNext (element : LinkElement) : Bool := element.params.any (·.isNext)

/-- The text of an element up to its first comma. -/
def head (element : LinkElement) : List Char :=
  element.text.takeWhile (· ≠ ',')

/-- The parts behind a comma of the element itself. -/
def rest (element : LinkElement) : List (List Char) :=
  (element.text.splitOn ',').tail

/-- No comma in the URI, and `rel="next"` comes before any other comma. -/
def Readable (element : LinkElement) : Prop :=
  ',' ∉ element.uri ∧ relNext <:+: element.head

instance (element : LinkElement) : Decidable element.Readable :=
  inferInstanceAs (Decidable (_ ∧ _))

/-- The element is readable, or has a part with both brackets and
`rel="next"` behind one of its commas. -/
def StandsOut (element : LinkElement) : Prop :=
  element.Readable ∨ ∃ part ∈ element.rest, Looks part

instance (element : LinkElement) : Decidable element.StandsOut :=
  inferInstanceAs (Decidable (_ ∨ _))

/-- A readable element offers its own URI; another one what stands in the
brackets of its first part that looks like an element. -/
def Offers (element : LinkElement) (uri : List Char) : Prop :=
  if element.Readable then uri = element.uri
  else ∃ part ∈ element.rest.find? (Looks ·), Quotes part uri

end LinkElement

def linkHeader (elements : List LinkElement) : List Char :=
  [',', ' '].intercalate (elements.map (·.text))

/-- The URI of the element that has the parameter. -/
def nextUri (elements : List LinkElement) : Option (List Char) :=
  (elements.find? (·.hasNext)).map (·.uri)

/-- The first element that stands out offers the URI of the next page, and
none stands out when there is no next page. -/
def FollowsNext (elements : List LinkElement) : Prop :=
  match elements.find? (·.StandsOut) with
  | none => nextUri elements = none
  | some element => ∃ uri ∈ nextUri elements, element.Offers uri

/-! ## The parts of a header -/

/-- Blanks in front of a header and of each later element. -/
theorem splitOn_linkHeader {blank : List Char} (apart : ',' ∉ blank)
    (element : LinkElement) (elements : List LinkElement) :
    (blank ++ linkHeader (element :: elements)).splitOn ',' =
      (blank ++ element.head) :: element.rest ++
        if elements = [] then []
        else ([' '] ++ linkHeader elements).splitOn ',' := by
  unfold linkHeader
  cases elements with
  | nil =>
      rw [List.map_singleton, List.intercalate_singleton,
        splitOn_append_of_not_mem apart]
      simp [LinkElement.head, LinkElement.rest]
  | cons second elements =>
      rw [List.map_cons, List.map_cons, List.intercalate_cons_cons, if_neg (by simp)]
      have same : blank ++ (element.text ++ [',', ' '] ++
          [',', ' '].intercalate (second.text :: elements.map (·.text))) =
          (blank ++ element.text) ++ ',' :: ([' '] ++
            [',', ' '].intercalate (second.text :: elements.map (·.text))) := by
        simp
      rw [← List.append_assoc] at same
      rw [← List.append_assoc, same, List.splitOn_append_cons_self,
        splitOn_append_of_not_mem apart]
      simp [LinkElement.head, LinkElement.rest]

namespace LinkElement

/-- With a comma in the URI, the first part has no closing bracket. -/
theorem head_eq (element : LinkElement) :
    (',' ∉ element.uri → ∃ after,
      element.head = '<' :: (element.uri ++ '>' :: after)) ∧
    (',' ∈ element.uri → '>' ∉ element.head) := by
  constructor
  · intro none
    have passes : ∀ c ∈ '<' :: element.uri ++ ['>'],
        decide (c ≠ ',') = true := by
      intro c member
      simp only [ne_eq, decide_eq_true_eq]
      rintro rfl
      simp [none] at member
    have split : element.text =
        ('<' :: element.uri ++ ['>']) ++ element.paramsText := by
      simp [text]
    refine ⟨element.paramsText.takeWhile (· ≠ ','), ?_⟩
    rw [head, split, List.takeWhile_append_of_pos passes]
    simp
  · intro comma
    obtain ⟨before, after, split, first⟩ := List.eq_append_cons_of_mem comma
    have passes : ∀ c ∈ '<' :: before, decide (c ≠ ',') = true := by
      intro c member
      simp only [ne_eq, decide_eq_true_eq]
      rintro rfl
      simp [first] at member
    have same : element.text = ('<' :: before) ++
        ',' :: (after ++ '>' :: element.paramsText) := by
      simp [text, split]
    have closing : '>' ∉ before := by
      intro member
      apply element.brackets.2
      rw [split]
      exact List.mem_append_left _ member
    rw [head, same, List.takeWhile_append_of_pos passes]
    simp [closing]

theorem looks_head (element : LinkElement) :
    Looks element.head ↔ element.Readable := by
  by_cases comma : ',' ∈ element.uri
  · have closing := element.head_eq.2 comma
    simp [Looks, Readable, comma, closing]
  · obtain ⟨after, same⟩ := element.head_eq.1 comma
    have opening : '<' ∈ element.head := by simp [same]
    have closing : '>' ∈ element.head := by simp [same]
    simp [Looks, Readable, comma, opening, closing]

theorem quotes_head {element : LinkElement} (readable : element.Readable) :
    Quotes element.head element.uri := by
  obtain ⟨after, same⟩ := element.head_eq.1 readable.1
  exact ⟨[], after, same, by simp, by simp, element.brackets.2⟩

end LinkElement

/-- The part of a header that decides. -/
theorem find_splitOn_linkHeader (elements : List LinkElement) :
    ∀ {blank : List Char}, Blank blank → ',' ∉ blank →
    match elements.find? (·.StandsOut) with
    | none =>
        ((blank ++ linkHeader elements).splitOn ',').find? (Looks ·) = none
    | some element =>
        ∃ part, ((blank ++ linkHeader elements).splitOn ',').find? (Looks ·) =
            some part ∧ Looks part ∧
              ∀ uri, Quotes part uri ↔ element.Offers uri := by
  induction elements with
  | nil =>
      intro blank lead apart
      have none : ¬ Looks blank :=
        fun looks => lead.not_mem (c := '<') (by decide) looks.2.1
      have whole : blank ++ linkHeader [] = blank := List.append_nil _
      rw [whole, List.splitOn_eq_singleton apart]
      simp [none]
  | cons element elements ih =>
      intro blank lead apart
      rw [splitOn_linkHeader apart]
      have first : Looks (blank ++ element.head) ↔ element.Readable := by
        have padded := looks_padded lead blank_nil element.head
        rw [List.append_nil] at padded
        exact padded.trans element.looks_head
      by_cases readable : element.Readable
      · have stands : element.StandsOut := Or.inl readable
        have looks := first.mpr readable
        have quotes : Quotes (blank ++ element.head) element.uri := by
          have padded : Quotes (blank ++ element.head ++ []) element.uri :=
            (LinkElement.quotes_head readable).padded lead
          rwa [List.append_nil] at padded
        simp only [List.find?_cons, stands, decide_true, List.cons_append,
          looks, Option.some.injEq, exists_eq_left', true_and]
        intro uri
        rw [LinkElement.Offers, if_pos readable]
        constructor
        · intro other
          exact other.unique looks.1 quotes
        · rintro rfl
          exact quotes
      have notFirst : ¬ Looks (blank ++ element.head) := mt first.mp readable
      simp only [List.cons_append, List.find?_cons, notFirst, decide_false,
        List.find?_append]
      cases stray : element.rest.find? (Looks ·) with
      | some part =>
          have looks : Looks part := by
            simpa using List.find?_some stray
          have stands : element.StandsOut :=
            Or.inr ⟨part, List.mem_of_find?_eq_some stray, looks⟩
          simp only [stands, decide_true, Option.some_or, Option.some.injEq,
            exists_eq_left']
          refine ⟨looks, ?_⟩
          intro uri
          rw [LinkElement.Offers, if_neg readable, stray]
          simp
      | none =>
          have plain : ¬ element.StandsOut := by
            rintro (isReadable | ⟨part, member, looks⟩)
            · exact readable isReadable
            · have other := List.find?_eq_none.mp stray part member
              simp [looks] at other
          simp only [plain, decide_false, Option.none_or]
          by_cases last : elements = []
          · subst last
            simp
          · rw [if_neg last]
            have space : Blank [' '] := by
              intro c member
              rw [List.mem_singleton.mp member]
              rfl
            exact ih space (by decide)

/-- For every header of elements the next page is followed exactly when the
first element that stands out offers it; and no text makes the search panic
unless in the first part that passes its test the closing bracket comes
first. -/
theorem parseLinkNext_exact (elements : List LinkElement)
    (header : List Char) :
    (parseLinkNext (linkHeader elements) = some (nextUri elements) ↔
        FollowsNext elements) ∧
      (parseLinkNext header ≠ none ↔
        ∀ part ∈ (header.splitOn ',').find? (Looks ·), ¬ Crossed part) := by
  constructor
  · have decided := find_splitOn_linkHeader elements blank_nil (by simp)
    rw [List.nil_append] at decided
    have outcome := parseParts_of_find ((linkHeader elements).splitOn ',')
    unfold FollowsNext parseLinkNext
    split at decided <;> rename_i stands
    · rw [outcome.1 decided, Option.some.injEq]
      exact eq_comm
    · obtain ⟨part, found, _, offers⟩ := decided
      obtain ⟨texts, ends⟩ := outcome.2 part found
      cases next : nextUri elements with
      | none => simp [ends]
      | some uri => simp [texts, offers]
  · have outcome := parseParts_of_find (header.splitOn ',')
    unfold parseLinkNext
    cases found : (header.splitOn ',').find? (Looks ·) with
    | none => simp [outcome.1 found]
    | some part =>
        obtain ⟨texts, ends⟩ := outcome.2 part found
        have looks : Looks part := by
          simpa using List.find?_some found
        simp only [Option.mem_def, Option.some.injEq, forall_eq']
        constructor
        · intro parsed crossed
          cases result : parseParts (header.splitOn ',') with
          | none => exact parsed result
          | some outcome =>
              cases outcome with
              | none => exact ends result
              | some text =>
                  exact crossed.not_quotes looks.1 ((texts text).mp result)
        · intro notCrossed panics
          rcases looks_cases looks with ⟨text, quotes⟩ | crossed
          · rw [(texts text).mpr quotes] at panics
            cases panics
          · exact notCrossed crossed

/-- The parameter that is looked for. -/
def paramNext : LinkParam := ⟨"rel".toList, some (.quoted "next".toList)⟩

/-- `<a,b>; rel="next"` -/
def commaInUri : List LinkElement :=
  [⟨['a', ',', 'b'], [paramNext], by decide⟩]

/-- `<a>; xrel="next"` -/
def otherParam : List LinkElement :=
  [⟨['a'], [⟨"xrel".toList, paramNext.value⟩], by decide⟩]

/-- With a comma in its URI the next page is lost, another parameter is taken
for the relation, and brackets the wrong way round panic. -/
theorem parseLinkNext_inexact :
    parseLinkNext (linkHeader commaInUri) ≠ some (nextUri commaInUri) ∧
      parseLinkNext (linkHeader otherParam) ≠ some (nextUri otherParam) ∧
      parseLinkNext (['>'] ++ relNext ++ ['<']) = none := by
  decide

end HfMount.Hub
