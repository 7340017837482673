import Clausal.Proofs.AcceptedLines

/-!
# The lines that a parser is given

A parser is given chunks and, at any time, the end of the input.  What it has parsed depends only on
the lines that these end, wherever they are cut: it has read all of them, or else the lines before
the first one with a fault (`became_giveAll`).
-/

set_option autoImplicit false

namespace Clausal.Dimacs.Parser

/-! ## Inputs and the lines they end -/

inductive Input
  | chunk (bytes : List UInt8)
  /-- The end of the input, which ends an unfinished line too. -/
  | ending
  deriving DecidableEq

namespace Input

/-- The lines that an input ends when `pending` was given of the first one. -/
def lines (pending : List UInt8) : Input → List (List UInt8)
  | .chunk bytes => ((pending ++ bytes).splitOn newline).dropLast
  | .ending => if pending.isEmpty then [] else [pending]

def rest (pending : List UInt8) : Input → List UInt8
  | .chunk bytes => ((pending ++ bytes).splitOn newline).getLastD []
  | .ending => []

def linesOfAll (pending : List UInt8) : List Input → List (List UInt8)
  | [] => []
  | input :: later => input.lines pending ++ linesOfAll (input.rest pending) later

end Input

def give (parser : Parser) : Input → Parser × Except ParseError Unit
  | .chunk bytes => parser.feed bytes
  | .ending => parser.finish

def giveAll (parser : Parser) : List Input → Parser × Except ParseError Unit
  | [] => (parser, .ok ())
  | input :: later => andThen (parser.give input) (·.giveAll later)

section Lines

variable {line bytes pending : List UInt8}

theorem newline_notMem_of_mem_splitOn (member : line ∈ bytes.splitOn newline) :
    newline ∉ line := by
  induction bytes generalizing line with
  | nil =>
      rw [List.splitOn_nil, List.mem_singleton] at member
      rw [member]
      exact List.not_mem_nil
  | cons byte rest inductionHypothesis =>
      rw [List.splitOn_cons_eq_if_modifyHead] at member
      cases cut : rest.splitOn newline with
      | nil => exact absurd cut (List.splitOn_ne_nil newline rest)
      | cons first others =>
          rw [cut] at inductionHypothesis member
          split at member
          · rcases List.mem_cons.mp member with rfl | later
            · exact List.not_mem_nil
            · exact inductionHypothesis later
          · next other =>
              rw [List.modifyHead_cons] at member
              rcases List.mem_cons.mp member with rfl | later
              · have notFirst := inductionHypothesis List.mem_cons_self
                simp only [List.mem_cons, not_or]
                exact ⟨fun same => other (by simp [same]), notFirst⟩
              · exact inductionHypothesis (List.mem_cons_of_mem first later)

theorem Input.newline_notMem_rest (input : Input) : newline ∉ input.rest pending := by
  cases input with
  | chunk bytes =>
      have nonempty := List.splitOn_ne_nil newline (pending ++ bytes)
      rw [rest, List.getLastD_eq_getLast?, List.getLast?_eq_some_getLast nonempty]
      exact newline_notMem_of_mem_splitOn (List.getLast_mem nonempty)
  | ending => exact List.not_mem_nil

theorem Input.newline_notMem_of_mem_lines {input : Input} (inside : newline ∉ pending)
    (member : line ∈ input.lines pending) : newline ∉ line := by
  cases input with
  | chunk bytes => exact newline_notMem_of_mem_splitOn (List.dropLast_subset _ member)
  | ending =>
      rw [lines] at member
      split at member
      · cases member
      · rw [List.mem_singleton.mp member]
        exact inside

theorem Input.newline_notMem_of_mem_linesOfAll {inputs : List Input} (inside : newline ∉ pending)
    (member : line ∈ linesOfAll pending inputs) : newline ∉ line := by
  induction inputs generalizing pending with
  | nil => cases member
  | cons input later inductionHypothesis =>
      rcases List.mem_append.mp member with here | there
      · exact newline_notMem_of_mem_lines inside here
      · exact inductionHypothesis input.newline_notMem_rest there

theorem Input.lines_chunk_newline (inside : newline ∉ pending) (bytes : List UInt8) :
    (Input.chunk (newline :: bytes)).lines pending = pending :: (Input.chunk bytes).lines [] := by
  rw [lines, lines, List.splitOn_append_cons_self_of_not_mem inside,
    List.dropLast_cons_of_ne_nil (List.splitOn_ne_nil _ _), List.nil_append]

theorem Input.rest_chunk_newline (inside : newline ∉ pending) (bytes : List UInt8) :
    (Input.chunk (newline :: bytes)).rest pending = (Input.chunk bytes).rest [] := by
  have nonempty := List.splitOn_ne_nil newline bytes
  rw [rest, rest, List.splitOn_append_cons_self_of_not_mem inside, List.nil_append]
  cases cut : bytes.splitOn newline with
  | nil => exact absurd cut nonempty
  | cons first others => rfl

end Lines

/-! ## What is parsed of lines -/

/-- What a parser has parsed, apart from where it stands in its input. -/
def content (parser : Parser) : Parser :=
  { parser with pending := #[], lineNumber := 0, failed := false }

def contentAfter (parser : Parser) (lines : List (List UInt8)) : Except LineFault Parser :=
  (lines.map lineText).foldlM readLine parser.content

theorem content_eq_iff {parser other : Parser} :
    parser.content = other.content ↔ parser.formula = other.formula ∧
      parser.header = other.header ∧ parser.varCount = other.varCount ∧
      parser.clauseCount = other.clauseCount := by
  simp only [content, mk.injEq, true_and, and_true]

theorem readLine_content (parser : Parser) (text : List Char) :
    parser.content.readLine text = (parser.readLine text).map content := by
  cases line : Line.ofText text with
  | skipped =>
      rw [readLine_skipped _ line, readLine_skipped _ line]
      rfl
  | clause tokens =>
      rw [readLine_clause _ line, readLine_clause _ line]
      cases readClause tokens with
      | error fault => rfl
      | ok lits =>
          simp only [Except.map, addClause]
          split <;> rfl
  | problem varCount clauseCount =>
      have sameHeader : parser.content.header = parser.header := rfl
      rw [readLine_problem _ line, readLine_problem _ line, sameHeader]
      split
      · rfl
      · cases readHeader text varCount clauseCount <;> rfl

/-- What a parser becomes when it is given lines: it reads all of them, with `rest` of another line
left over, or it stops at the first one with a fault, with nothing of it. -/
inductive Became (start : Parser) (lines : List (List UInt8)) (rest : List UInt8) :
    Parser × Except ParseError Unit → Prop
  | read {next : Parser} (works : next.failed = false) (waiting : next.pending.toList = rest)
      (parsed : start.contentAfter lines = .ok next.content) :
      Became start lines rest (next, .ok ())
  | stopped {next : Parser} (before : List (List UInt8)) (line : List UInt8)
      (later : List (List UInt8)) {fault : LineFault} (number : Nat) (failed : next.failed = true)
      (cleared : next.pending = #[]) (split : lines = before ++ line :: later)
      (parsed : start.contentAfter before = .ok next.content)
      (offends : next.content.readLine (lineText line) = .error fault) :
      Became start lines rest (next, .error (.line number fault))

section Became

variable {start : Parser} {lines more : List (List UInt8)} {rest final : List UInt8}
  {outcome : Parser × Except ParseError Unit}
  {goOn : Parser → Parser × Except ParseError Unit}

theorem contentAfter_append {next : Parser} (parsed : start.contentAfter lines = .ok next.content)
    (more : List (List UInt8)) : start.contentAfter (lines ++ more) = next.contentAfter more := by
  rw [contentAfter] at parsed
  rw [contentAfter, List.map_append, List.foldlM_append, parsed]
  rfl

/-- Where the parser stands in its input does not count. -/
theorem Became.of_content (became : Became start lines rest outcome) {other : Parser}
    (same : start.content = other.content) : Became other lines rest outcome := by
  have parsesAlike : start.contentAfter = other.contentAfter := by
    funext texts
    rw [contentAfter, contentAfter, same]
  cases became with
  | read works waiting parsed =>
      rw [parsesAlike] at parsed
      exact .read works waiting parsed
  | stopped before line later number failed cleared split parsed offends =>
      rw [parsesAlike] at parsed
      exact .stopped before line later number failed cleared split parsed offends

/-- What lines make of a parser that has read other lines before. -/
theorem Became.after {next : Parser} (parsed : start.contentAfter lines = .ok next.content)
    (became : Became next more final outcome) : Became start (lines ++ more) final outcome := by
  cases became with
  | read works waiting parsedMore =>
      exact .read works waiting ((contentAfter_append parsed more).trans parsedMore)
  | stopped before line later number failed cleared split parsedBefore offends =>
      refine .stopped (lines ++ before) line later number failed cleared ?_ ?_ offends
      · rw [split, List.append_assoc]
      · exact (contentAfter_append parsed before).trans parsedBefore

/-- Lines after lines, unless one of the first ones has a fault. -/
theorem Became.andThen (became : Became start lines rest outcome)
    (goesOn : ∀ next : Parser, next.failed = false → next.pending.toList = rest →
      Became next more final (goOn next)) :
    Became start (lines ++ more) final (andThen outcome goOn) := by
  cases became with
  | @read next works waiting parsed => exact (goesOn next works waiting).after parsed
  | stopped before line later number failed cleared split parsed offends =>
      refine .stopped before line (later ++ more) number failed cleared ?_ parsed offends
      rw [split, List.append_assoc, List.cons_append]

theorem Became.newline_notMem_pending (became : Became start lines rest outcome)
    (inside : newline ∉ rest) : newline ∉ outcome.1.pending.toList := by
  cases became with
  | read works waiting parsed =>
      rw [waiting]
      exact inside
  | stopped before line later number failed cleared split parsed offends =>
      rw [cleared]
      exact List.not_mem_nil

end Became

theorem became_finishLine {parser : Parser} (works : parser.failed = false) :
    Became parser [parser.pending.toList] [] parser.finishLine := by
  have sameContent : parser.cleared.content = parser.content := rfl
  have read := readLine_content parser.cleared (lineText parser.pending.toList)
  rw [sameContent] at read
  rw [finishLine_eq]
  cases taken : parser.cleared.readLine (lineText parser.pending.toList) with
  | error fault =>
      rw [readLines_cons_of_error taken]
      rw [taken] at read
      exact .stopped [] _ [] parser.lineNumber rfl rfl rfl rfl read
  | ok next =>
      obtain ⟨noneWaiting, _, sameMark⟩ := frame_of_readLine taken
      rw [readLines_last_of_ok taken]
      rw [taken] at read
      refine .read (sameMark.trans works) (congrArg Array.toList noneWaiting) ?_
      rw [contentAfter, List.map_singleton, List.foldlM_cons, read]
      rfl

theorem feedBytes_newline (parser : Parser) (bytes : List UInt8) :
    parser.feedBytes (newline :: bytes) =
      andThen parser.finishLine (·.onNextLine.feedBytes bytes) := by
  rcases finished : parser.finishLine with ⟨next, error | done⟩
  · exact feedBytes_newline_of_error finished bytes
  · exact feedBytes_newline_of_ok finished bytes

theorem became_feedBytes {parser : Parser} (works : parser.failed = false)
    (inside : newline ∉ parser.pending.toList) (bytes : List UInt8) :
    Became parser ((Input.chunk bytes).lines parser.pending.toList)
      ((Input.chunk bytes).rest parser.pending.toList) (parser.feedBytes bytes) := by
  -- A newline ends the unfinished line, so that the rest starts with none; other bytes join it.
  induction bytes generalizing parser with
  | nil =>
      rw [Input.lines, Input.rest, List.append_nil, List.splitOn_eq_singleton inside]
      exact .read works rfl rfl
  | cons byte rest inductionHypothesis =>
      by_cases isNewline : byte = newline
      · subst isNewline
        rw [Input.lines_chunk_newline inside, Input.rest_chunk_newline inside, feedBytes_newline]
        refine (became_finishLine works).andThen ?_
        intro next nextWorks nothingWaiting
        have onNextLine : next.onNextLine.pending.toList = [] := nothingWaiting
        have restBecame := @inductionHypothesis next.onNextLine nextWorks (by simp [onNextLine])
        rw [onNextLine] at restBecame
        exact restBecame.of_content rfl
      · rw [feedBytes_of_ne_newline parser isNewline]
        have restBecame := @inductionHypothesis
          { parser with pending := parser.pending.push byte } works
          (by simp [inside, Ne.symm isNewline])
        simp only [Input.lines, Input.rest, Array.toList_push, List.append_assoc,
          List.singleton_append] at restBecame
        exact restBecame.of_content rfl

/-- An input takes a parser that works to what the lines make of it that the input ends. -/
theorem became_give {parser : Parser} (works : parser.failed = false)
    (inside : newline ∉ parser.pending.toList) (input : Input) :
    Became parser (input.lines parser.pending.toList) (input.rest parser.pending.toList)
      (parser.give input) := by
  have notFailed : ¬parser.failed = true := by simp [works]
  cases input with
  | chunk bytes =>
      rw [give, feed, if_neg notFailed]
      exact became_feedBytes works inside bytes
  | ending =>
      rw [give, finish, if_neg notFailed, Input.lines, Input.rest]
      by_cases nothing : parser.pending = #[]
      · rw [nothing]
        exact .read works (by rw [nothing]) rfl
      · have waiting : parser.pending.isEmpty = false := by simpa using nothing
        have someWaiting : parser.pending.toList.isEmpty = false := by simpa using nothing
        simp only [waiting, someWaiting, Bool.false_eq_true, if_false]
        exact became_finishLine works

/-- What inputs make of a parser depends only on the lines that they end. -/
theorem became_giveAll {parser : Parser} (works : parser.failed = false)
    (inside : newline ∉ parser.pending.toList) (inputs : List Input) :
    Became parser (Input.linesOfAll parser.pending.toList inputs)
      (inputs.foldl Input.rest parser.pending.toList) (parser.giveAll inputs) := by
  induction inputs generalizing parser with
  | nil => exact .read works rfl rfl
  | cons input later inductionHypothesis =>
      refine (became_give works inside input).andThen ?_
      intro next nextWorks waiting
      have nextInside : newline ∉ next.pending.toList := by
        rw [waiting]
        exact input.newline_notMem_rest
      have laterBecame := inductionHypothesis nextWorks nextInside
      rw [waiting] at laterBecame
      exact laterBecame

/-! ## Parsers that were given something -/

/-- A parser that holds what some lines write, and an unfinished line. -/
structure Reading (parser : Parser) : Prop where
  holds : ∃ texts, Holds texts parser
  inside : newline ∉ parser.pending.toList

theorem reading_startingAt (lineNumber : Nat) : Reading (startingAt lineNumber) where
  holds := ⟨[], holds_new.congr rfl rfl rfl rfl⟩
  inside := List.not_mem_nil

theorem holds_of_foldlM {earlier texts : List (List Char)} {start last : Parser}
    (holds : Holds earlier start) (read : texts.foldlM readLine start = .ok last) :
    Holds (earlier ++ texts) last := by
  induction texts generalizing earlier start with
  | nil =>
      cases read
      rw [List.append_nil]
      exact holds
  | cons text rest inductionHypothesis =>
      rw [List.foldlM_cons] at read
      rcases holds.step text with ⟨next, taken, _, nextHolds⟩ | ⟨fault, fails, _⟩
      · rw [taken] at read
        rw [List.append_cons]
        exact inductionHypothesis nextHolds read
      · rw [fails] at read
        cases read

theorem holds_of_contentAfter {earlier : List (List Char)} {lines : List (List UInt8)}
    {parser next : Parser} (holds : Holds earlier parser)
    (parsed : parser.contentAfter lines = .ok next.content) :
    Holds (earlier ++ lines.map lineText) next := by
  have contentHolds : Holds earlier parser.content := holds.congr rfl rfl rfl rfl
  exact (holds_of_foldlM contentHolds parsed).congr rfl rfl rfl rfl

theorem Became.holds {earlier : List (List Char)} {start : Parser} {lines : List (List UInt8)}
    {rest : List UInt8} {outcome : Parser × Except ParseError Unit}
    (became : Became start lines rest outcome) (holds : Holds earlier start) :
    ∃ texts, Holds texts outcome.1 := by
  cases became with
  | read works waiting parsed => exact ⟨_, holds_of_contentAfter holds parsed⟩
  | stopped before line later number failed cleared split parsed offends =>
      exact ⟨_, holds_of_contentAfter holds parsed⟩

theorem give_of_failed {parser : Parser} (failed : parser.failed = true) (input : Input) :
    parser.give input = (parser, .error .previousError) := by
  cases input with
  | chunk bytes => rw [give, feed, if_pos failed]
  | ending => rw [give, finish, if_pos failed]

theorem Reading.give {parser : Parser} (reading : Reading parser) (input : Input) :
    Reading (parser.give input).1 := by
  cases failed : parser.failed with
  | true =>
      rw [give_of_failed failed]
      exact reading
  | false =>
      obtain ⟨texts, holds⟩ := reading.holds
      have became := became_give failed reading.inside input
      exact ⟨became.holds holds, became.newline_notMem_pending input.newline_notMem_rest⟩

end Clausal.Dimacs.Parser
