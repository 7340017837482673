import Clausal.Proofs.InputLines
import Clausal.Proofs.LineGrammar
import Clausal.Proofs.ListedFormula

/-!
# Which inputs are accepted

A parser that has read some lines holds the clauses that these lines write, and knows whether one
of them is the problem line that counts (`Holds`).  That is all that decides on the next line: it
is taken when it conforms, and has a fault otherwise (`Holds.step`).  So an input is accepted when
all its lines conform, and else the first one that does not is reported (`parse_wellFormed`).
-/

set_option autoImplicit false

namespace Clausal.Dimacs

/-- What a parser holds after some lines when nothing was taken out of it. -/
structure Holds (lines : List (List Char)) (parser : Parser) : Prop where
  header_iff : parser.header.isSome ↔ ∃ line ∈ lines, IsProblem line
  written : ∃ written, List.Forall₂ Writes lines written ∧
    parser.formula = .ofClauses (written.filter fun lits => !lits.isEmpty)
  varCount : parser.varCount = parser.formula.varCount
  clauseCount : parser.clauseCount = parser.formula.clauses.length

theorem holds_new : Holds [] .new where
  header_iff := by simp [Parser.new, Parser.startingAt]
  written := ⟨[], .nil, rfl⟩
  varCount := rfl
  clauseCount := rfl

section Effects

variable {lines : List (List Char)} {parser : Parser} {text : List Char}

theorem exists_mem_append_singleton :
    (∃ line ∈ lines ++ [text], IsProblem line) ↔
      (∃ line ∈ lines, IsProblem line) ∨ IsProblem text := by
  simp [or_and_right, exists_or]

/-- The numbers of lines and the failure mark do not count. -/
theorem Holds.congr (holds : Holds lines parser) {other : Parser}
    (sameFormula : other.formula = parser.formula) (sameHeader : other.header = parser.header)
    (sameVars : other.varCount = parser.varCount)
    (sameClauses : other.clauseCount = parser.clauseCount) : Holds lines other := by
  constructor
  · rw [sameHeader]
    exact holds.header_iff
  · rw [sameFormula]
    exact holds.written
  · rw [sameVars, sameFormula]
    exact holds.varCount
  · rw [sameClauses, sameFormula]
    exact holds.clauseCount

theorem Holds.written_append_nil (holds : Holds lines parser) (writes : Writes text []) :
    ∃ written, List.Forall₂ Writes (lines ++ [text]) written ∧
      parser.formula = .ofClauses (written.filter fun lits => !lits.isEmpty) := by
  obtain ⟨written, lineByLine, isFormula⟩ := holds.written
  refine ⟨written ++ [[]], List.rel_append lineByLine (.cons writes .nil), ?_⟩
  simpa using isFormula

theorem Holds.skip (holds : Holds lines parser) (writes : Writes text [])
    (other : ¬IsProblem text) : Holds (lines ++ [text]) parser where
  header_iff := by
    rw [exists_mem_append_singleton, holds.header_iff]
    simp [other]
  written := holds.written_append_nil writes
  varCount := holds.varCount
  clauseCount := holds.clauseCount

theorem Holds.declare (holds : Holds lines parser) (isProblem : IsProblem text) (header : Header) :
    Holds (lines ++ [text]) { parser with header := some header } where
  header_iff := by
    rw [exists_mem_append_singleton]
    simp [isProblem]
  written := holds.written_append_nil (.other (.inr isProblem.1))
  varCount := holds.varCount
  clauseCount := holds.clauseCount

theorem Holds.addClause (holds : Holds lines parser) {lits : List Lit} (writes : Writes text lits)
    (other : ¬IsProblem text) : Holds (lines ++ [text]) (parser.addClause lits) := by
  by_cases empty : lits.isEmpty
  · obtain rfl := List.isEmpty_iff.mp empty
    exact holds.skip writes other
  · obtain ⟨written, lineByLine, isFormula⟩ := holds.written
    rw [Parser.addClause, if_neg empty]
    refine ⟨?_, ⟨written ++ [lits], List.rel_append lineByLine (.cons writes .nil), ?_⟩, ?_, ?_⟩
    · rw [exists_mem_append_singleton, holds.header_iff]
      simp [other]
    · simp only [isFormula, List.filter_append, ← Formula.ofClauses_append_singleton]
      simp [empty]
    · simp only [Formula.varCount_addClause, holds.varCount]
    · simp only [Formula.clauses_addClause, List.length_append, holds.clauseCount,
        List.length_singleton]

end Effects

/-! ## One line -/

/-- Reading the counts of a problem line gives a header exactly when both are numbers in range. -/
theorem readHeader_cases (line varCount clauseCount : List Char) :
    (∃ vars clauses, Numeral.Unsigned varCount vars ∧ vars ≤ 2 ^ 28 ∧
      Numeral.Unsigned clauseCount clauses ∧ clauses < 2 ^ 64 ∧
      readHeader line varCount clauseCount = .ok ⟨vars, clauses⟩) ∨
    (∃ field, (field = varCount ∨ field = clauseCount) ∧
      (∀ n, Numeral.Unsigned field n → ¬n < 2 ^ 64) ∧
      readHeader line varCount clauseCount = .error (.invalidHeader (String.ofList line))) ∨
    (∃ vars, Numeral.Unsigned varCount vars ∧ 2 ^ 28 < vars ∧
      readHeader line varCount clauseCount =
        .error (.literalTooLarge (String.ofList varCount))) := by
  have noWord : ∀ {field : List Char}, Numeral.unsignedWord? field = none →
      ∀ n, Numeral.Unsigned field n → ¬n < 2 ^ 64 := by
    intro field none n denotes inRange
    rw [Numeral.unsignedWord?_eq_some_iff.mpr ⟨denotes, inRange⟩] at none
    cases none
  cases readVars : Numeral.unsignedWord? varCount with
  | none =>
      refine .inr (.inl ⟨varCount, .inl rfl, noWord readVars, ?_⟩)
      simp only [readHeader, readVars]
  | some vars =>
      cases readClauses : Numeral.unsignedWord? clauseCount with
      | none =>
          refine .inr (.inl ⟨clauseCount, .inr rfl, noWord readClauses, ?_⟩)
          simp only [readHeader, readVars, readClauses]
      | some clauses =>
          obtain ⟨varsDenoted, _⟩ := Numeral.unsignedWord?_eq_some_iff.mp readVars
          obtain ⟨clausesDenoted, inRange⟩ := Numeral.unsignedWord?_eq_some_iff.mp readClauses
          by_cases small : vars ≤ Var.maxCount
          · refine .inl ⟨vars, clauses, varsDenoted, small, clausesDenoted, inRange, ?_⟩
            simp only [readHeader, readVars, readClauses, if_pos small]
          · refine .inr (.inr ⟨vars, varsDenoted, not_le.mp small, ?_⟩)
            simp only [readHeader, readVars, readClauses, if_neg small]

theorem readHeader_ok {line varCount clauseCount : List Char} {vars clauses : Nat}
    (varsDenoted : Numeral.Unsigned varCount vars) (small : vars ≤ 2 ^ 28)
    (clausesDenoted : Numeral.Unsigned clauseCount clauses) (inRange : clauses < 2 ^ 64) :
    readHeader line varCount clauseCount = .ok ⟨vars, clauses⟩ := by
  have varsInRange : vars < 0x10000000000000000 := by omega
  have varsAllowed : vars ≤ Var.maxCount := small
  simp only [readHeader, Numeral.unsignedWord?_eq_some_iff.mpr ⟨varsDenoted, varsInRange⟩,
    Numeral.unsignedWord?_eq_some_iff.mpr ⟨clausesDenoted, inRange⟩, if_pos varsAllowed]

section Step

variable {earlier : List (List Char)} {parser : Parser} {text : List Char}

theorem Holds.header_eq_none (holds : Holds earlier parser)
    (first : ∀ line ∈ earlier, ¬IsProblem line) : ¬parser.header.isSome := by
  intro declared
  obtain ⟨line, member, isProblem⟩ := holds.header_iff.mp declared
  exact first line member isProblem

theorem Holds.exists_readLine (holds : Holds earlier parser) (conforms : Conforms earlier text) :
    ∃ next, parser.readLine text = .ok next := by
  cases conforms with
  | empty nothing =>
      subst nothing
      exact ⟨parser, rfl⟩
  | comment start => exact ⟨parser, Parser.readLine_skipped parser (ofText_comment start)⟩
  | skippedProblem start lacking =>
      exact ⟨parser, Parser.readLine_skipped parser (ofText_skippedProblem start lacking)⟩
  | problem isProblem first vars clauses =>
      obtain ⟨varCount, clauseCount, isVarCount, isClauseCount, line⟩ := ofText_problem isProblem
      obtain ⟨_, n, isField, varsDenoted, _, small⟩ := vars
      obtain rfl := Option.some.inj (isVarCount.symm.trans isField)
      obtain ⟨_, m, isField, clausesDenoted, inRange⟩ := clauses
      obtain rfl := Option.some.inj (isClauseCount.symm.trans isField)
      rw [Parser.readLine_problem parser line, if_neg (holds.header_eq_none first),
        readHeader_ok varsDenoted small clausesDenoted inRange]
      exact ⟨_, rfl⟩
  | clause notComment notProblem tokens =>
      by_cases nonempty : text = []
      · subst nonempty
        exact ⟨parser, rfl⟩
      obtain ⟨numerals, closing, split, named, closes⟩ := tokens
      obtain ⟨lits, denote⟩ := exists_denoted named
      have read := readClause_ok denote closes
      rw [← split] at read
      rw [Parser.readLine_clause parser (ofText_clause nonempty notComment notProblem), read]
      exact ⟨_, rfl⟩

/-- A line is taken, and then the parser also holds what it writes, or the line has a fault. -/
def Steps (earlier : List (List Char)) (parser : Parser) (text : List Char) : Prop :=
  (∃ next, parser.readLine text = .ok next ∧ Conforms earlier text ∧
    Holds (earlier ++ [text]) next) ∨
  (∃ fault, parser.readLine text = .error fault ∧ Offends earlier text fault)

theorem Holds.step_problem (holds : Holds earlier parser) (isProblem : IsProblem text) :
    Steps earlier parser text := by
  obtain ⟨varCount, clauseCount, isVarCount, isClauseCount, line⟩ := ofText_problem isProblem
  have read := Parser.readLine_problem parser line
  by_cases declared : parser.header.isSome
  · rw [if_pos declared] at read
    exact .inr ⟨_, read, .duplicate isProblem (holds.header_iff.mp declared)⟩
  · rw [if_neg declared] at read
    have first : ∀ line ∈ earlier, ¬IsProblem line := by
      intro line member isProblem
      exact declared (holds.header_iff.mpr ⟨line, member, isProblem⟩)
    rcases readHeader_cases text varCount clauseCount with
      ⟨vars, clauses, varsDenoted, small, clausesDenoted, inRange, header⟩ |
      ⟨field, isField, noWord, header⟩ | ⟨vars, varsDenoted, large, header⟩
    · rw [header] at read
      refine .inl ⟨_, read, ?_, holds.declare isProblem ⟨vars, clauses⟩⟩
      exact .problem isProblem first ⟨varCount, vars, isVarCount, varsDenoted, by omega, small⟩
        ⟨clauseCount, clauses, isClauseCount, clausesDenoted, inRange⟩
    · rw [header] at read
      refine .inr ⟨_, read, .noCount isProblem first ⟨field, ?_, noWord⟩⟩
      rcases isField with rfl | rfl
      · exact .inl isVarCount
      · exact .inr isClauseCount
    · rw [header] at read
      exact .inr ⟨_, read, .largeCount isProblem first isVarCount varsDenoted large⟩

theorem Holds.step_clause (holds : Holds earlier parser) (nonempty : text ≠ [])
    (notComment : text.head? ≠ some 'c') (notProblem : text.head? ≠ some 'p') :
    Steps earlier parser text := by
  have line := ofText_clause nonempty notComment notProblem
  have read := Parser.readLine_clause parser line
  rcases readClause_cases (fields text) with ⟨numerals, closing, lits, split, denote, closes⟩ |
    ⟨numerals, token, rest, fault, split, good, bad, fails⟩
  · rw [split, readClause_ok denote closes] at read
    refine .inl ⟨_, read, ?_, ?_⟩
    · exact .clause notComment notProblem
        ⟨numerals, closing, split, namesLit_of_denoted denote, closes⟩
    · refine holds.addClause (.clause notComment notProblem split denote closes) ?_
      intro isProblem
      exact notProblem isProblem.1
  · rw [fails] at read
    exact .inr ⟨fault, read, .token notComment notProblem split good bad⟩

theorem Holds.step (holds : Holds earlier parser) (text : List Char) :
    Steps earlier parser text := by
  by_cases empty : text = []
  · subst empty
    have writes : Writes [] [] := .clause (by simp) (by simp) rfl .nil (.inl rfl)
    exact .inl ⟨parser, rfl, .empty rfl, holds.skip writes (by simp [IsProblem])⟩
  by_cases isComment : text.head? = some 'c'
  · have taken := Parser.readLine_skipped parser (ofText_comment isComment)
    have other : ¬IsProblem text := by simp [IsProblem, isComment]
    exact .inl ⟨parser, taken, .comment isComment, holds.skip (.other (.inl isComment)) other⟩
  by_cases startsProblem : text.head? = some 'p'
  · by_cases lacking : LacksCounts text
    · have taken := Parser.readLine_skipped parser
        (ofText_skippedProblem startsProblem lacking)
      have other : ¬IsProblem text := by simp [IsProblem, lacking]
      exact .inl ⟨parser, taken, .skippedProblem startsProblem lacking,
        holds.skip (.other (.inr startsProblem)) other⟩
    · exact holds.step_problem ⟨startsProblem, lacking⟩
  · exact holds.step_clause empty isComment startsProblem

end Step

/-! ## All lines -/

def WellFormed (lines : List (List Char)) : Prop :=
  ∀ front text back, lines = front ++ text :: back → Conforms front text

theorem wellFormed_nil : WellFormed [] := by
  intro front text back split
  simp at split

theorem WellFormed.append_singleton {lines : List (List Char)} {text : List Char}
    (wellFormed : WellFormed lines) (conforms : Conforms lines text) :
    WellFormed (lines ++ [text]) := by
  intro front line back split
  rcases List.eq_nil_or_concat back with rfl | ⟨others, last, rfl⟩
  · obtain ⟨rfl, same⟩ := List.append_inj' split rfl
    obtain rfl := List.singleton_inj.mp same
    exact conforms
  · rw [List.concat_eq_append, ← List.cons_append, ← List.append_assoc] at split
    obtain ⟨inside, _⟩ := List.append_inj' split rfl
    exact wellFormed front line others inside

/-- How the reading of lines ends: all of them are well formed, or the first one that does not
conform is reported with its number. -/
def Ends (lines : List (List Char)) : Parser × Except ParseError Unit → Prop
  | (last, .ok ()) => WellFormed lines ∧ Holds lines last
  | (last, .error error) => ∃ front text back fault, lines = front ++ text :: back ∧
      WellFormed front ∧ Holds front last ∧ ¬Conforms front text ∧ Offends front text fault ∧
      error = .line (front.length + 1) fault

theorem readLines_ends {earlier lines : List (List Char)} {parser : Parser}
    (wellFormed : WellFormed earlier) (holds : Holds earlier parser)
    (numbered : parser.lineNumber = earlier.length + 1) :
    Ends (earlier ++ lines) (parser.readLines lines) := by
  -- `Holds` of the lines before it is all that reading a line depends on.
  induction lines generalizing earlier parser with
  | nil =>
      rw [List.append_nil]
      exact ⟨wellFormed, holds⟩
  | cons text rest inductionHypothesis =>
      rcases holds.step text with ⟨next, read, conforms, nextHolds⟩ | ⟨fault, read, offends⟩
      · have nextWellFormed := wellFormed.append_singleton conforms
        have nextNumber := (Parser.frame_of_readLine read).2.1
        by_cases last : rest = []
        · subst last
          rw [Parser.readLines_last_of_ok read]
          exact ⟨nextWellFormed, nextHolds⟩
        · rw [Parser.readLines_cons_of_ok read last, List.append_cons]
          refine inductionHypothesis nextWellFormed (nextHolds.congr rfl rfl rfl rfl) ?_
          rw [Parser.onNextLine, List.length_append, List.length_singleton, nextNumber, numbered]
      · rw [Parser.readLines_cons_of_error read]
        refine ⟨earlier, text, rest, fault, rfl, wellFormed, holds.congr rfl rfl rfl rfl, ?_,
          offends, by rw [numbered]⟩
        intro conforms
        obtain ⟨next, taken⟩ := holds.exists_readLine conforms
        rw [read] at taken
        cases taken

theorem run_ends (bytes : List UInt8) : Ends (linesOf bytes) (Parser.new.run [bytes]) := by
  rw [Parser.run_eq_readLines]
  exact readLines_ends wellFormed_nil holds_new rfl

theorem Holds.takeFormula {lines : List (List Char)} {parser : Parser}
    (holds : Holds lines parser) : parser.takeFormula.1 = parser.formula := by
  have enough : max parser.formula.varCount parser.varCount = parser.formula.varCount := by
    rw [holds.varCount, Nat.max_self]
  simp only [Parser.takeFormula, Formula.setVarCount, enough]

theorem Holds.varCount_eq {lines : List (List Char)} {parser : Parser}
    (holds : Holds lines parser) :
    parser.varCount = Formula.countFor parser.formula.clauses.flatten := by
  obtain ⟨written, _, isFormula⟩ := holds.written
  rw [holds.varCount, isFormula, Formula.varCount_ofClauses, Formula.clauses_ofClauses]

theorem parse_cases (bytes : List UInt8) :
    (∃ last, parse [.bytes bytes] = .ok last.formula ∧ WellFormed (linesOf bytes) ∧
      Holds (linesOf bytes) last) ∨
    (∃ front text back fault,
      parse [.bytes bytes] = .error (.parse (.line (front.length + 1) fault)) ∧
      linesOf bytes = front ++ text :: back ∧ WellFormed front ∧ ¬Conforms front text ∧
      Offends front text fault) := by
  have ends := run_ends bytes
  cases isRun : Parser.new.run [bytes] with
  | mk last answer =>
      rw [isRun] at ends
      cases answer with
      | ok done =>
          obtain ⟨wellFormed, holds⟩ := ends
          have parsed := parse_of_run_ok isRun
          rw [holds.takeFormula] at parsed
          exact .inl ⟨last, parsed, wellFormed, holds⟩
      | error error =>
          obtain ⟨front, text, back, fault, split, wellFormed, _, fails, offends, rfl⟩ := ends
          exact .inr ⟨front, text, back, fault, parse_of_run_error isRun, split, wellFormed, fails,
            offends⟩

/-- What is parsed has the variables that its clauses need. -/
theorem varCount_of_parse {bytes : List UInt8} {formula : Formula}
    (accepted : parse [.bytes bytes] = .ok formula) :
    formula.varCount = Formula.countFor formula.clauses.flatten := by
  rcases parse_cases bytes with ⟨last, parsed, _, holds⟩ | ⟨_, _, _, _, rejected, _⟩
  · rw [accepted] at parsed
    cases parsed
    rw [← holds.varCount, holds.varCount_eq]
  · rw [accepted] at rejected
    cases rejected

/-- An input is accepted exactly when its lines are well formed.  What is parsed are the clauses
that the lines write, apart from empty ones, over as many variables as they need.  Otherwise the
error tells the number of the first line that does not conform, and its fault. -/
theorem parse_wellFormed (bytes : List UInt8) :
    ((∃ formula, parse [.bytes bytes] = .ok formula) ↔ WellFormed (linesOf bytes)) ∧
    (∀ formula, parse [.bytes bytes] = .ok formula →
      (∃ written, List.Forall₂ Writes (linesOf bytes) written ∧
        formula.clauses = written.filter fun lits => !lits.isEmpty) ∧
      formula.varCount = (formula.clauses.flatten.map fun l => l.var.number).max?.getD 0) ∧
    (∀ error, parse [.bytes bytes] = .error error →
      ∃ front text back fault, linesOf bytes = front ++ text :: back ∧ WellFormed front ∧
        ¬Conforms front text ∧ Offends front text fault ∧
        error = .parse (.line (front.length + 1) fault)) := by
  rcases parse_cases bytes with ⟨last, parsed, wellFormed, holds⟩ |
    ⟨front, text, back, fault, parsed, split, wellFormed, fails, offends⟩
  · rw [parsed]
    refine ⟨⟨fun _ => wellFormed, fun _ => ⟨_, rfl⟩⟩, ?_, ?_⟩
    · intro formula isFormula
      cases isFormula
      obtain ⟨written, lineByLine, isOf⟩ := holds.written
      have isClauses : last.formula.clauses = written.filter fun lits => !lits.isEmpty := by
        rw [isOf, Formula.clauses_ofClauses]
      refine ⟨⟨written, lineByLine, isClauses⟩, ?_⟩
      rw [← Formula.countFor_eq_max?, isClauses, isOf, Formula.varCount_ofClauses]
    · intro error isError
      cases isError
  · rw [parsed]
    refine ⟨⟨?_, ?_⟩, ?_, ?_⟩
    · intro accepted
      obtain ⟨formula, isFormula⟩ := accepted
      cases isFormula
    · intro allConform
      exact absurd (allConform front text back split) fails
    · intro formula isFormula
      cases isFormula
    · intro error isError
      cases isError
      exact ⟨front, text, back, fault, split, wellFormed, fails, offends, rfl⟩

end Clausal.Dimacs
