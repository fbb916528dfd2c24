import HfMount.Basic
import HfMount.Lib.Slice

/-!
# Reconstruction plans

The plan of a file lists the terms whose unpacked bytes make up the file, and
where to fetch the xorbs of these terms.  The plan of a range is derived from
the plan of the whole file: the terms that the range touches, and the offset of
the range in the first of them.
-/

namespace HfMount.Reconstruction

open Slice

/-- `FileRange`: from `start` up to, and without, `stop`. -/
structure FileRange where
  start : Nat
  stop : Nat
  deriving DecidableEq

/-- `XorbReconstructionTerm`; the chunk range is passed on as it is. -/
structure Term (H : Type) where
  hash : H
  unpackedLength : Nat
  chunks : FileRange
  deriving DecidableEq

/-- `QueryReconstructionResponseV2`, with the fetch information of each
xorb. -/
structure Response (H X : Type) where
  offsetIntoFirstRange : Nat
  terms : List (Term H)
  xorbs : H → Option X

/-- The variables of the loop over the terms. -/
structure Walk (H : Type) where
  curOffset : Nat
  resultTerms : List (Term H)
  offsetIntoFirst : Nat
  neededHashes : List H

def Walk.start (H : Type) : Walk H :=
  { curOffset := 0
    resultTerms := []
    offsetIntoFirst := 0
    neededHashes := [] }

section

variable {H X : Type}

/-- The loop; offsets are those of a file, whose length is a `u64`. -/
def walkTerms (range : FileRange) : Walk H → List (Term H) → Walk H
  | walk, [] => walk
  | walk, term :: terms =>
      let termStart := walk.curOffset
      let termEnd := walk.curOffset + term.unpackedLength
      if termEnd ≤ range.start then
        walkTerms range { walk with curOffset := termEnd } terms
      else if range.stop ≤ termStart then walk
      else
        walkTerms range
          { curOffset := termEnd
            resultTerms := walk.resultTerms ++ [term]
            offsetIntoFirst :=
              if walk.resultTerms.isEmpty then range.start - termStart
              else walk.offsetIntoFirst
            neededHashes := walk.neededHashes ++ [term.hash] }
          terms

def deriveRangeResponse [DecidableEq H] (full : Response H X)
    (range : FileRange) : Response H X :=
  let walk := walkTerms range (.start H) full.terms
  { offsetIntoFirstRange := walk.offsetIntoFirst
    terms := walk.resultTerms
    xorbs := fun hash =>
      if hash ∈ walk.neededHashes then full.xorbs hash else none }

/-- The answer from a cached plan of the whole file; `none` is past the end of
the file. -/
def answerFullPlan [DecidableEq H] (full : Response H X) (range : FileRange) :
    Option (Response H X) :=
  let response := deriveRangeResponse full range
  if response.terms.isEmpty && (!full.terms.isEmpty || 0 < range.start) then
    none
  else some response

/-! ## The terms of a range -/

def totalLength (terms : List (Term H)) : Nat :=
  (terms.map (·.unpackedLength)).sum

@[simp] theorem totalLength_nil : totalLength ([] : List (Term H)) = 0 := rfl

@[simp] theorem totalLength_cons (term : Term H) (terms : List (Term H)) :
    totalLength (term :: terms) = term.unpackedLength + totalLength terms := by
  simp [totalLength]

@[simp] theorem totalLength_append (left right : List (Term H)) :
    totalLength (left ++ right) = totalLength left + totalLength right := by
  simp [totalLength]

/-- Where a range cuts the terms that begin at `offset`: the terms before the
range, those that it touches, and those after it. -/
structure Cut (range : FileRange) (offset : Nat) (terms before run after :
    List (Term H)) : Prop where
  split : terms = before ++ run ++ after
  skipped : before = [] ∨ offset + totalLength before ≤ range.start
  first : ∀ term rest, run = term :: rest →
    range.start < offset + totalLength before + term.unpackedLength
  started : ∀ earlier term later, run = earlier ++ term :: later →
    offset + totalLength before + totalLength earlier < range.stop
  stopped : after = [] ∨
    range.stop ≤ offset + totalLength before + totalLength run

variable {range : FileRange}

/-- Once a term is taken, the walk takes all terms up to the end of the
range. -/
theorem walkTerms_taking (terms : List (Term H)) {walk : Walk H}
    (taken : walk.resultTerms ≠ []) (past : range.start < walk.curOffset) :
    ∃ run after, Cut range walk.curOffset terms [] run after ∧
      (walkTerms range walk terms).resultTerms = walk.resultTerms ++ run ∧
      (walkTerms range walk terms).offsetIntoFirst = walk.offsetIntoFirst ∧
      (walkTerms range walk terms).neededHashes =
        walk.neededHashes ++ run.map (·.hash) := by
  induction terms generalizing walk with
  | nil =>
      refine ⟨[], [], ⟨rfl, Or.inl rfl, ?_, ?_, Or.inl rfl⟩, ?_, rfl, ?_⟩
      · intro term rest shape
        cases shape
      · intro earlier term later shape
        simp at shape
      · simp [walkTerms]
      · simp [walkTerms]
  | cons term terms ih =>
      have notSkipped : ¬ walk.curOffset + term.unpackedLength ≤ range.start := by
        omega
      rw [walkTerms, if_neg notSkipped]
      split <;> rename_i ended
      · refine ⟨[], term :: terms, ⟨rfl, Or.inl rfl, ?_, ?_, Or.inr ?_⟩, ?_, rfl,
          ?_⟩
        · intro other rest shape
          cases shape
        · intro earlier other later shape
          simp at shape
        · simpa using ended
        · simp
        · simp
      · obtain ⟨run, after, cut, result, offset, hashes⟩ := @ih
          { curOffset := walk.curOffset + term.unpackedLength
            resultTerms := walk.resultTerms ++ [term]
            offsetIntoFirst := walk.offsetIntoFirst
            neededHashes := walk.neededHashes ++ [term.hash] }
          (by simp) (by dsimp only; omega)
        have notFirst : walk.resultTerms.isEmpty = false := by
          simpa using taken
        simp only [notFirst, Bool.false_eq_true, if_false]
        refine ⟨term :: run, after, ⟨?_, Or.inl rfl, ?_, ?_, ?_⟩, ?_, offset, ?_⟩
        · rw [cut.split]
          rfl
        · intro other rest _
          simp only [totalLength_nil]
          omega
        · intro earlier other later shape
          cases earlier with
          | nil =>
              simp only [totalLength_nil]
              omega
          | cons head earlier =>
              obtain ⟨rfl, rest⟩ := List.cons.inj shape
              have started := cut.started earlier other later rest
              simp only [totalLength_nil, totalLength_cons] at started ⊢
              omega
        · refine cut.stopped.imp_right fun stopped => ?_
          simp only [totalLength_nil, totalLength_cons] at stopped ⊢
          omega
        · rw [result, List.append_assoc]
          rfl
        · rw [hashes, List.append_assoc]
          rfl

/-- Before that it skips the terms that end before the range. -/
theorem walkTerms_skipping (terms : List (Term H)) {walk : Walk H}
    (empty : walk.resultTerms = []) :
    ∃ before run after, Cut range walk.curOffset terms before run after ∧
      (walkTerms range walk terms).resultTerms = run ∧
      (walkTerms range walk terms).offsetIntoFirst =
        (if run = [] then walk.offsetIntoFirst
          else range.start - (walk.curOffset + totalLength before)) ∧
      (walkTerms range walk terms).neededHashes =
        walk.neededHashes ++ run.map (·.hash) := by
  induction terms generalizing walk with
  | nil =>
      refine ⟨[], [], [], ⟨rfl, Or.inl rfl, ?_, ?_, Or.inl rfl⟩, ?_, rfl, ?_⟩
      · intro term rest shape
        cases shape
      · intro earlier term later shape
        simp at shape
      · simpa [walkTerms] using empty
      · simp [walkTerms]
  | cons term terms ih =>
      rw [walkTerms]
      split <;> rename_i skips
      · obtain ⟨before, run, after, cut, result, offset, hashes⟩ := @ih
          { walk with curOffset := walk.curOffset + term.unpackedLength } empty
        refine ⟨term :: before, run, after, ⟨?_, Or.inr ?_, ?_, ?_, ?_⟩, result,
          ?_, hashes⟩
        · rw [cut.split]
          rfl
        · rcases cut.skipped with rfl | skipped
          · simpa using skips
          · simp only [totalLength_cons] at skipped ⊢
            omega
        · intro other rest shape
          have first := cut.first other rest shape
          simp only [totalLength_cons] at first ⊢
          omega
        · intro earlier other later shape
          have started := cut.started earlier other later shape
          simp only [totalLength_cons] at started ⊢
          omega
        · refine cut.stopped.imp_right fun stopped => ?_
          simp only [totalLength_cons] at stopped ⊢
          omega
        · rw [offset]
          simp only [totalLength_cons, Nat.add_assoc]
      · split <;> rename_i ended
        · refine ⟨[], [], term :: terms, ⟨rfl, Or.inl rfl, ?_, ?_, Or.inr ?_⟩,
            empty, rfl, ?_⟩
          · intro other rest shape
            cases shape
          · intro earlier other later shape
            simp at shape
          · simpa using ended
          · simp
        · obtain ⟨run, after, cut, result, offset, hashes⟩ := @walkTerms_taking
            _ range terms
            { curOffset := walk.curOffset + term.unpackedLength
              resultTerms := walk.resultTerms ++ [term]
              offsetIntoFirst := range.start - walk.curOffset
              neededHashes := walk.neededHashes ++ [term.hash] }
            (by simp) (by dsimp only; omega)
          simp only [empty, List.isEmpty_nil, if_true, List.nil_append]
            at result offset hashes ⊢
          refine ⟨[], term :: run, after, ⟨?_, Or.inl rfl, ?_, ?_, ?_⟩, result,
            ?_, ?_⟩
          · rw [cut.split]
            rfl
          · intro other rest shape
            obtain ⟨rfl, _⟩ := List.cons.inj shape
            simp only [totalLength_nil]
            omega
          · intro earlier other later shape
            cases earlier with
            | nil =>
                simp only [totalLength_nil]
                omega
            | cons head earlier =>
                obtain ⟨rfl, rest⟩ := List.cons.inj shape
                have started := cut.started earlier other later rest
                simp only [totalLength_nil, totalLength_cons] at started ⊢
                omega
          · refine cut.stopped.imp_right fun stopped => ?_
            simp only [totalLength_nil, totalLength_cons] at stopped ⊢
            omega
          · simp [offset]
          · rw [hashes, List.append_assoc]
            rfl

variable [DecidableEq H]

/-- What the derived plan takes of the plan of the whole file. -/
theorem deriveRangeResponse_cut (full : Response H X) (range : FileRange) :
    ∃ before after, Cut range 0 full.terms before
        (deriveRangeResponse full range).terms after ∧
      (deriveRangeResponse full range).offsetIntoFirstRange =
        (if (deriveRangeResponse full range).terms = [] then 0
          else range.start - totalLength before) ∧
      (deriveRangeResponse full range).xorbs = fun hash =>
        if hash ∈ (deriveRangeResponse full range).terms.map (·.hash) then
          full.xorbs hash else none := by
  obtain ⟨before, run, after, cut, result, offset, hashes⟩ :=
    @walkTerms_skipping H range full.terms (.start H) rfl
  have terms : (deriveRangeResponse full range).terms = run := result
  refine ⟨before, after, ?_, ?_, ?_⟩
  · rw [terms]
    exact cut
  · rw [terms]
    have start : (Walk.start H).curOffset = 0 := rfl
    rw [start, Nat.zero_add] at offset
    exact offset
  · rw [terms]
    have needed : (walkTerms range (.start H) full.terms).neededHashes =
        run.map (·.hash) := hashes
    simp only [deriveRangeResponse, needed]

/-! ## The bytes of a range -/

/-- The bytes of the terms, one after the other. -/
def unpackTerms (unpack : Term H → Bytes) (terms : List (Term H)) : Bytes :=
  terms.flatMap unpack

omit [DecidableEq H] in
theorem length_unpackTerms {unpack : Term H → Bytes} {terms : List (Term H)}
    (lengths : ∀ term ∈ terms, (unpack term).length = term.unpackedLength) :
    (unpackTerms unpack terms).length = totalLength terms := by
  induction terms with
  | nil => rfl
  | cons term terms ih =>
      have rest := ih fun other member =>
        lengths other (List.mem_cons_of_mem _ member)
      have head := lengths term List.mem_cons_self
      rw [unpackTerms] at rest ⊢
      rw [List.flatMap_cons, List.length_append, rest, head, totalLength_cons]

/-- What the caller cuts out of the unpacked terms. -/
def readResponse (unpack : Term H → Bytes) (response : Response H X)
    (range : FileRange) : Bytes :=
  slice (unpackTerms unpack response.terms) response.offsetIntoFirstRange
    (range.stop - range.start)

/-- The derived plan reads the bytes of the range. -/
theorem readResponse_derived (full : Response H X) (range : FileRange)
    (nonempty : range.start < range.stop) (unpack : Term H → Bytes)
    (lengths : ∀ term ∈ full.terms,
      (unpack term).length = term.unpackedLength) :
    readResponse unpack (deriveRangeResponse full range) range =
      slice (unpackTerms unpack full.terms) range.start
        (range.stop - range.start) := by
  obtain ⟨before, after, cut, offset, _⟩ := deriveRangeResponse_cut full range
  rw [readResponse, offset]
  generalize (deriveRangeResponse full range).terms = run at cut
  have split := cut.split
  have beforeLength : (unpackTerms unpack before).length =
      totalLength before := by
    apply length_unpackTerms
    intro term member
    apply lengths
    simp [split, member]
  have runLength : (unpackTerms unpack run).length = totalLength run := by
    apply length_unpackTerms
    intro term member
    apply lengths
    simp [split, member]
  have whole : unpackTerms unpack full.terms =
      unpackTerms unpack before ++
        (unpackTerms unpack run ++ unpackTerms unpack after) := by
    simp only [split, unpackTerms, List.flatMap_append, List.append_assoc]
  have skipped : totalLength before ≤ range.start := by
    rcases cut.skipped with rfl | skipped
    · exact Nat.zero_le _
    · omega
  have noRest : run = [] → after = [] := by
    rintro rfl
    rcases cut.stopped with none | stopped
    · exact none
    · simp only [totalLength_nil] at stopped
      omega
  have dropped : (unpackTerms unpack full.terms).drop range.start =
      (unpackTerms unpack run ++ unpackTerms unpack after).drop
        (range.start - totalLength before) := by
    rw [whole, List.drop_append, List.drop_eq_nil_of_le (by omega),
      List.nil_append, beforeLength]
  rw [slice, slice, dropped]
  by_cases taken : run = []
  · obtain rfl := noRest taken
    subst taken
    simp [unpackTerms]
  · rw [if_neg taken]
    rcases cut.stopped with rfl | stopped
    · simp [unpackTerms]
    · have enough : range.stop - range.start ≤
          ((unpackTerms unpack run).drop
            (range.start - totalLength before)).length := by
        simp only [List.length_drop]
        omega
      rw [List.drop_append, List.take_append_of_le_length enough]

/-! ## The terms that meet a range -/

omit [DecidableEq H] in
theorem totalLength_take_le (terms : List (Term H)) (count : Nat) :
    totalLength (terms.take count) ≤ totalLength terms := by
  have whole := congrArg totalLength (List.take_append_drop count terms)
  rw [totalLength_append] at whole
  omega

/-- The term at the index has a byte in the range. -/
def Meets (terms : List (Term H)) (index : Nat) (range : FileRange) : Prop :=
  ∃ term position, terms[index]? = some term ∧
    totalLength (terms.take index) ≤ position ∧
    position < totalLength (terms.take index) + term.unpackedLength ∧
    range.start ≤ position ∧ position < range.stop

omit [DecidableEq H] in
/-- Every taken term ends after the start of the range. -/
theorem Cut.ended {offset : Nat} {terms before run after : List (Term H)}
    (cut : Cut range offset terms before run after)
    {earlier later : List (Term H)} {term : Term H}
    (parts : run = earlier ++ term :: later) :
    range.start < offset + totalLength before + totalLength earlier +
      term.unpackedLength := by
  cases earlier with
  | nil => exact cut.first term later parts
  | cons head earlier =>
      have first := cut.first head (earlier ++ term :: later) parts
      rw [totalLength_cons]
      omega

omit [DecidableEq H] in
/-- No term is taken when the range begins past the end. -/
theorem Cut.run_eq_nil {terms before run after : List (Term H)}
    (cut : Cut range 0 terms before run after)
    (nonempty : range.start < range.stop) :
    run = [] ↔ totalLength terms ≤ range.start := by
  have total := congrArg totalLength cut.split
  rw [totalLength_append, totalLength_append] at total
  have skipped : totalLength before ≤ range.start := by
    rcases cut.skipped with rfl | skipped
    · exact Nat.zero_le _
    · omega
  constructor
  · rintro rfl
    rcases cut.stopped with rfl | stopped
    · simp only [totalLength_nil] at total
      omega
    · simp only [totalLength_nil] at stopped
      omega
  · intro past
    cases run with
    | nil => rfl
    | cons term rest =>
        have first := cut.first term rest rfl
        rw [totalLength_cons] at total
        omega

omit [DecidableEq H] in
/-- The taken terms are those that meet the range. -/
theorem Cut.meets_iff {terms before run after : List (Term H)}
    (cut : Cut range 0 terms before run after)
    (positive : ∀ term ∈ terms, 0 < term.unpackedLength)
    (nonempty : range.start < range.stop) (index : Nat) :
    Meets terms index range ↔
      before.length ≤ index ∧ index < before.length + run.length := by
  have split := cut.split
  constructor
  · rintro ⟨term, position, found, after_start, before_stop, above, below⟩
    constructor
    · refine Nat.le_of_not_lt fun early => ?_
      have skipped : totalLength before ≤ range.start := by
        rcases cut.skipped with rfl | skipped
        · exact absurd early (Nat.not_lt_zero _)
        · omega
      rw [split, List.append_assoc, List.getElem?_append_left early] at found
      rw [split, List.append_assoc,
        List.take_append_of_le_length (Nat.le_of_lt early)] at before_stop
      have bound := totalLength_take_le before (index + 1)
      rw [List.take_add_one, found] at bound
      simp only [totalLength_append, Option.toList_some, totalLength_cons,
        totalLength_nil] at bound
      omega
    · refine Nat.lt_of_not_le fun late => ?_
      have rest : after ≠ [] := by
        rintro rfl
        rw [split, List.append_nil, List.getElem?_eq_none] at found
        · cases found
        · simpa using late
      have stopped := cut.stopped.resolve_left rest
      rw [split, List.take_append, List.take_of_length_le (by simpa using late),
        totalLength_append, totalLength_append] at after_start
      omega
  · rintro ⟨low, high⟩
    obtain ⟨place, rfl⟩ := Nat.exists_eq_add_of_le low
    have inside : place < run.length := by omega
    have found : terms[before.length + place]? = some run[place] := by
      rw [split, List.append_assoc, List.getElem?_append_right low,
        Nat.add_sub_cancel_left, List.getElem?_append_left inside,
        List.getElem?_eq_getElem inside]
    have offset : totalLength (terms.take (before.length + place)) =
        totalLength before + totalLength (run.take place) := by
      rw [split, List.append_assoc, List.take_append,
        List.take_of_length_le low, Nat.add_sub_cancel_left,
        List.take_append_of_le_length (Nat.le_of_lt inside),
        totalLength_append]
    have parts : run = run.take place ++ run[place] :: run.drop (place + 1) := by
      rw [List.getElem_cons_drop, List.take_append_drop]
    have started := cut.started _ _ _ parts
    have long := positive _ (List.mem_of_getElem? found)
    have ended := cut.ended parts
    refine ⟨run[place], max (totalLength before + totalLength (run.take place))
      range.start, found, ?_⟩
    rw [offset]
    omega

/-- The derived plan of a range: the bytes of the range, the xorbs of every
term, and the terms that meet the range and no others.  The answer from the
plan is `none` past the end of the file, but an empty file has a plan for the
ranges that begin at its start. -/
theorem derived_plan_exact (full : Response H X)
    (positive : ∀ term ∈ full.terms, 0 < term.unpackedLength)
    (range : FileRange) (nonempty : range.start < range.stop) :
    (∀ unpack : Term H → Bytes,
      (∀ term ∈ full.terms, (unpack term).length = term.unpackedLength) →
      readResponse unpack (deriveRangeResponse full range) range =
        slice (unpackTerms unpack full.terms) range.start
          (range.stop - range.start)) ∧
    (∀ term ∈ (deriveRangeResponse full range).terms,
      (deriveRangeResponse full range).xorbs term.hash =
        full.xorbs term.hash) ∧
    (∃ first, (deriveRangeResponse full range).terms =
        (full.terms.drop first).take
          (deriveRangeResponse full range).terms.length ∧
      ∀ index, Meets full.terms index range ↔ first ≤ index ∧
        index < first + (deriveRangeResponse full range).terms.length) ∧
    (answerFullPlan full range = none ↔
      totalLength full.terms ≤ range.start ∧
        (full.terms ≠ [] ∨ 0 < range.start)) := by
  obtain ⟨before, after, cut, _, xorbs⟩ := deriveRangeResponse_cut full range
  refine ⟨fun unpack => readResponse_derived full range nonempty unpack, ?_, ?_,
    ?_⟩
  · intro term member
    rw [xorbs]
    exact if_pos (List.mem_map.mpr ⟨term, member, rfl⟩)
  · refine ⟨before.length, ?_, cut.meets_iff positive nonempty⟩
    have split := cut.split
    generalize (deriveRangeResponse full range).terms = run at split
    rw [split, List.append_assoc, List.drop_left, List.take_left]
  · rw [← cut.run_eq_nil nonempty]
    simp only [answerFullPlan, Bool.and_eq_true, Bool.or_eq_true,
      List.isEmpty_iff, Bool.not_eq_true', List.isEmpty_eq_false_iff,
      decide_eq_true_eq, ite_eq_left_iff, reduceCtorEq, imp_false, not_not]

end

/-- Three terms, the first and the last of one xorb. -/
def threeTerms : Response Nat Unit :=
  { offsetIntoFirstRange := 0
    terms := [⟨7, 3, ⟨0, 1⟩⟩, ⟨8, 2, ⟨0, 1⟩⟩, ⟨7, 4, ⟨1, 3⟩⟩]
    xorbs := fun _ => some () }

theorem derived_plan_exact_threeTerms :
    readResponse (fun term => List.replicate term.unpackedLength 9)
        (deriveRangeResponse threeTerms ⟨4, 7⟩) ⟨4, 7⟩ = [9, 9, 9] ∧
      (deriveRangeResponse threeTerms ⟨4, 7⟩).xorbs 8 = some () ∧
      answerFullPlan threeTerms ⟨9, 12⟩ = none := by
  have inside := derived_plan_exact threeTerms (by decide) ⟨4, 7⟩ (by decide)
  have past := derived_plan_exact threeTerms (by decide) ⟨9, 12⟩ (by decide)
  refine ⟨?_, inside.2.1 ⟨8, 2, ⟨0, 1⟩⟩ (by decide), ?_⟩
  · rw [inside.1 _ (by decide)]
    rfl
  · exact past.2.2.2.mpr (by decide)

/-- The range at the start of an empty file is at its end, and has a plan. -/
theorem empty_file_answered : ¬ ∀ (full : Response Nat Unit)
    (range : FileRange), (∀ term ∈ full.terms, 0 < term.unpackedLength) →
    range.start < range.stop →
    (answerFullPlan full range = none ↔
      totalLength full.terms ≤ range.start) := by
  intro exact
  have answer := (exact
    { offsetIntoFirstRange := 0
      terms := []
      xorbs := fun _ => none } ⟨0, 1⟩ (by decide) (by decide)).mpr (by decide)
  cases answer

end HfMount.Reconstruction
