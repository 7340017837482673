import Clausal.Proofs.AcceptedLines
import Clausal.Proofs.WrittenText

/-!
# Reading back what was written

The lines of a text that is written for a formula are read back as they were written.  The parser
does not keep empty clauses, and counts the variables that occur.  What was parsed of some input
has neither empty clauses nor other variables, and is read back as it is (`parse_writtenBytes`).
-/

set_option autoImplicit false

namespace Clausal.Dimacs

/-! ## The parser on these lines -/

section Reading

variable {header : Header}

theorem readLine_clauseWords (parser : Parser) (lits : List Lit) :
    parser.readLine (spaced (clauseWords lits)) = .ok (parser.addClause lits) := by
  obtain ⟨n, rest, firstWord⟩ : ∃ n rest, clauseWords lits = Numeral.integer n :: rest := by
    cases lits with
    | nil => exact ⟨0, [], rfl⟩
    | cons l rest => exact ⟨l.toInt, clauseWords rest, rfl⟩
  have sameHead : (spaced (clauseWords lits)).head? = (Numeral.integer n).head? := by
    rw [firstWord, head?_spaced (isWord_integer n)]
  have nonempty : spaced (clauseWords lits) ≠ [] := by
    intro nothing
    rw [nothing] at sameHead
    exact (isWord_integer n).ne_nil (List.head?_eq_none_iff.mp sameHead.symm)
  have notComment : (spaced (clauseWords lits)).head? ≠ some 'c' := by
    rw [sameHead]
    exact head?_integer_ne (by decide) (by decide)
  have notProblem : (spaced (clauseWords lits)).head? ≠ some 'p' := by
    rw [sameHead]
    exact head?_integer_ne (by decide) (by decide)
  have denote : List.Forall₂ Denotes (lits.map Lit.text) lits := by
    rw [List.forall₂_map_left_iff, List.forall₂_same]
    intro l _
    exact Numeral.signed_integer l.toInt
  have closes : Closes [Numeral.integer 0] := .inr ⟨_, rfl, Numeral.signed_integer 0⟩
  rw [Parser.readLine_clause parser (ofText_clause nonempty notComment notProblem),
    fields_spaced (isWord_clauseWords lits), clauseWords, readClause_ok denote closes]
  rfl

theorem ofText_headerWords (header : Header) :
    Line.ofText (spaced (headerWords header)) =
      .problem (Numeral.natural header.varCount) (Numeral.natural header.clauseCount) := by
  have allFields := fields_spaced (isWord_headerWords header)
  have isProblem : IsProblem (spaced (headerWords header)) := by
    constructor
    · have startsWithP : IsWord ['p'] := isWord_headerWords header _ List.mem_cons_self
      rw [headerWords, head?_spaced startsWithP]
      rfl
    · rw [LacksCounts, allFields]
      simp [headerWords]
  obtain ⟨varCount, clauseCount, isVarCount, isClauseCount, line⟩ := ofText_problem isProblem
  rw [allFields] at isVarCount isClauseCount
  cases isVarCount
  cases isClauseCount
  exact line

theorem readLine_headerWords_of_le (varsFit : header.varCount ≤ Var.maxCount)
    (clausesFit : header.clauseCount < 2 ^ 64) :
    Parser.new.readLine (spaced (headerWords header)) =
      .ok { Parser.new with header := some header } := by
  have read := Parser.readLine_problem .new (ofText_headerWords header)
  rw [if_neg (by decide), readHeader_ok (Numeral.unsigned_natural header.varCount) varsFit
    (Numeral.unsigned_natural header.clauseCount) clausesFit] at read
  exact read

theorem readLine_headerWords_of_lt (tooLarge : Var.maxCount < header.varCount)
    (varsFit : header.varCount < 2 ^ 64) (clausesFit : header.clauseCount < 2 ^ 64) :
    Parser.new.readLine (spaced (headerWords header)) =
      .error (.literalTooLarge (String.ofList (Numeral.natural header.varCount))) := by
  have read := Parser.readLine_problem .new (ofText_headerWords header)
  have varsRead := Numeral.unsignedWord?_eq_some_iff.mpr
    ⟨Numeral.unsigned_natural header.varCount, varsFit⟩
  have clausesRead := Numeral.unsignedWord?_eq_some_iff.mpr
    ⟨Numeral.unsigned_natural header.clauseCount, clausesFit⟩
  rw [if_neg (by decide)] at read
  simp only [readHeader, varsRead, clausesRead, if_neg (not_le.mpr tooLarge)] at read
  exact read

def Parser.takeClause (parser : Parser) (lits : List Lit) : Parser :=
  (parser.addClause lits).onNextLine

theorem readLines_clauseWords (parser : Parser) (clauses : List (List Lit)) :
    parser.readLines ((clauses.map clauseWords).map spaced ++ [[]]) =
      (clauses.foldl Parser.takeClause parser, .ok ()) := by
  induction clauses generalizing parser with
  | nil => exact Parser.readLines_last_of_ok (Parser.readLine_nil parser)
  | cons lits rest inductionHypothesis =>
      rw [List.map_cons, List.map_cons, List.cons_append,
        Parser.readLines_cons_of_ok (readLine_clauseWords parser lits) (by simp)]
      exact inductionHypothesis (parser.takeClause lits)

theorem header_foldl_takeClause (parser : Parser) (clauses : List (List Lit)) :
    (clauses.foldl Parser.takeClause parser).header = parser.header := by
  induction clauses generalizing parser with
  | nil => rfl
  | cons lits rest inductionHypothesis =>
      rw [List.foldl_cons, inductionHypothesis, Parser.takeClause, Parser.onNextLine,
        Parser.addClause]
      split <;> rfl

theorem formula_foldl_takeClause (parser : Parser) (clauses : List (List Lit)) :
    (clauses.foldl Parser.takeClause parser).formula =
      (clauses.filter fun lits => !lits.isEmpty).foldl Formula.addClause parser.formula := by
  induction clauses generalizing parser with
  | nil => rfl
  | cons lits rest inductionHypothesis =>
      rw [List.foldl_cons, inductionHypothesis, Parser.takeClause, Parser.onNextLine,
        Parser.addClause]
      cases empty : lits.isEmpty with
      | true => simp [empty]
      | false => simp [empty]

end Reading

/-! ## Whole formulas -/

/-- The counts of a formula are machine words, as they are for every formula in memory. -/
structure FitsWords (formula : Formula) : Prop where
  varCount : formula.varCount < 2 ^ 64
  size : formula.size < 2 ^ 64

theorem linesOf_written (formula : Formula) :
    linesOf (Utf8.asciiBytes (textOf (formulaWords formula))) =
      spaced (headerWords (headerOf formula)) ::
        ((formula.clauses.map clauseWords).map spaced ++ [[]]) := by
  rw [linesOf_textOf (isWord_formulaWords formula), formulaWords, List.map_cons, List.cons_append]

theorem run_written {formula : Formula} (fits : FitsWords formula)
    (allowed : formula.varCount ≤ Var.maxCount) :
    ∃ parser, Parser.new.run [Utf8.asciiBytes (textOf (formulaWords formula))] = (parser, .ok ()) ∧
      parser.header = some (headerOf formula) ∧
      parser.formula = .ofClauses (formula.clauses.filter fun lits => !lits.isEmpty) := by
  have headerRead : Parser.new.readLine (spaced (headerWords (headerOf formula))) = _ :=
    readLine_headerWords_of_le allowed fits.size
  rw [Parser.run_eq_readLines, linesOf_written, Parser.readLines_cons_of_ok headerRead (by simp),
    readLines_clauseWords]
  refine ⟨_, rfl, ?_, ?_⟩
  · rw [header_foldl_takeClause]
    rfl
  · rw [formula_foldl_takeClause]
    rfl

theorem run_written_of_lt {formula : Formula} (fits : FitsWords formula)
    (tooLarge : Var.maxCount < formula.varCount) :
    ∃ parser, Parser.new.run [Utf8.asciiBytes (textOf (formulaWords formula))] =
      (parser, .error (.line 1
        (.literalTooLarge (String.ofList (Numeral.natural formula.varCount))))) := by
  have headerRead : Parser.new.readLine (spaced (headerWords (headerOf formula))) = _ :=
    readLine_headerWords_of_lt tooLarge fits.varCount fits.size
  rw [Parser.run_eq_readLines, linesOf_written, Parser.readLines_cons_of_error headerRead]
  exact ⟨_, rfl⟩

/-- One more than the largest index of a variable that occurs, or zero if none does. -/
def usedVarCount (formula : Formula) : Nat :=
  (formula.clauses.flatten.map fun l => l.var.index + 1).max?.getD 0

theorem varCount_ofClauses_filter (formula : Formula) :
    (Formula.ofClauses (formula.clauses.filter fun lits => !lits.isEmpty)).varCount =
      usedVarCount formula := by
  rw [Formula.varCount_ofClauses, List.flatten_filter_not_isEmpty, Formula.countFor_eq_max?]
  rfl

theorem Holds.checkHeader_ok_iff {lines : List (List Char)} {parser : Parser} {header : Header}
    (holds : Holds lines parser) (declared : parser.header = some header) :
    parser.checkHeader = .ok () ↔
      parser.formula.varCount = header.varCount ∧
        parser.formula.clauses.length = header.clauseCount := by
  rw [← holds.varCount, ← holds.clauseCount, Parser.checkHeader, declared]
  by_cases sameVars : parser.varCount = header.varCount
  · by_cases sameClauses : parser.clauseCount = header.clauseCount
    · simp [sameVars, sameClauses]
    · simp [sameVars, sameClauses]
  · simp [sameVars]

/-- What was parsed of some input is made of clauses that are not empty. -/
theorem eq_ofClauses_of_parse {input : List UInt8} {formula : Formula}
    (parsed : parse [.bytes input] = .ok formula) :
    formula = .ofClauses (formula.clauses.filter fun lits => !lits.isEmpty) := by
  rcases parse_cases input with ⟨last, isFormula, _, holds⟩ | ⟨_, _, _, _, isError, _⟩
  · rw [isFormula] at parsed
    cases parsed
    obtain ⟨clauses, _, isOf⟩ := holds.written
    rw [isOf, Formula.clauses_ofClauses, List.filter_filter]
    simp only [Bool.and_self]
  · rw [isError] at parsed
    cases parsed

theorem usedVarCount_le (formula : Formula) : usedVarCount formula ≤ Var.maxCount := by
  rw [usedVarCount]
  cases largest : (formula.clauses.flatten.map fun l => l.var.index + 1).max? with
  | none => exact Nat.zero_le _
  | some count =>
      obtain ⟨l, _, isCount⟩ := List.mem_map.mp (List.max?_mem largest)
      have inRange := l.var.index_lt
      rw [Option.getD_some, ← isCount, Var.maxCount]
      omega

structure ReadBack (formula : Formula) (parser : Parser) : Prop where
  clauses : parser.takeFormula.1.clauses = formula.clauses.filter fun lits => !lits.isEmpty
  varCount : parser.takeFormula.1.varCount = usedVarCount formula
  header : parser.header = some ⟨formula.varCount, formula.size⟩
  checkHeader : parser.checkHeader = .ok () ↔
    [] ∉ formula.clauses ∧ formula.varCount = usedVarCount formula

def rewritten (input : List UInt8) : Option (List UInt8) :=
  match parse [.bytes input] with
  | .error _ => none
  | .ok formula => (writtenBytes formula).toOption

theorem length_filter_nonempty_iff (clauses : List (List Lit)) :
    (clauses.filter fun lits => !lits.isEmpty).length = clauses.length ↔ [] ∉ clauses := by
  rw [List.length_filter_eq_length_iff]
  constructor
  · intro allNonempty member
    exact absurd (allNonempty [] member) (by decide)
  · intro noneEmpty lits member
    rw [Bool.not_eq_true', List.isEmpty_eq_false_iff]
    intro isNil
    subst isNil
    exact noneEmpty member

theorem exists_readBack {formula : Formula} (fits : FitsWords formula)
    (allowed : formula.varCount ≤ Var.maxCount) :
    ∃ parser, Parser.new.run [Utf8.asciiBytes (textOf (formulaWords formula))] = (parser, .ok ()) ∧
      ReadBack formula parser ∧
      parser.takeFormula.1 = .ofClauses (formula.clauses.filter fun lits => !lits.isEmpty) := by
  obtain ⟨parser, isRun, declared, isFormula⟩ := run_written fits allowed
  have ends := run_ends (Utf8.asciiBytes (textOf (formulaWords formula)))
  rw [isRun] at ends
  obtain ⟨_, holds⟩ := ends
  have taken := holds.takeFormula.trans isFormula
  refine ⟨parser, isRun, ?_, taken⟩
  constructor
  · rw [taken, Formula.clauses_ofClauses]
  · rw [taken, varCount_ofClauses_filter]
  · exact declared
  · have sameVars : usedVarCount formula = formula.varCount ↔
        formula.varCount = usedVarCount formula := eq_comm
    have sameClauses := length_filter_nonempty_iff formula.clauses
    rw [holds.checkHeader_ok_iff declared, isFormula, Formula.clauses_ofClauses,
      varCount_ofClauses_filter, headerOf, ← Formula.length_clauses, sameVars, sameClauses,
      and_comm]

/-- What is written for a formula is read back as its clauses without the empty ones, unless the
formula has variables beyond the last one.  What was parsed of some input is read back as it is,
so the text that is written for it stays the same from then on. -/
theorem parse_writtenBytes (formula : Formula) (fits : FitsWords formula) :
    ∃ text, writtenBytes formula = .ok text ∧
      (formula.varCount ≤ Var.maxCount →
        ∃ parser, (readWith passBy () [.bytes text]).2 = .ok parser ∧
          parse [.bytes text] = .ok parser.takeFormula.1 ∧ ReadBack formula parser) ∧
      (Var.maxCount < formula.varCount →
        parse [.bytes text] = .error (.parse (.line 1
          (.literalTooLarge (String.ofList (Numeral.natural formula.varCount)))))) ∧
      (∀ input, parse [.bytes input] = .ok formula →
        parse [.bytes text] = .ok formula ∧
          rewritten input = some text ∧ rewritten text = some text) := by
  have isText := writtenBytes_eq formula
  refine ⟨_, isText, ?_, ?_, ?_⟩
  · intro allowed
    obtain ⟨parser, isRun, readBack, _⟩ := exists_readBack fits allowed
    refine ⟨parser, ?_, parse_of_run_ok isRun, readBack⟩
    rw [readWith_passBy_piece, isRun]
    rfl
  · intro tooLarge
    obtain ⟨parser, isRun⟩ := run_written_of_lt fits tooLarge
    exact parse_of_run_error isRun
  · intro input parsed
    have ofNonempty := eq_ofClauses_of_parse parsed
    -- A parsed formula has no more variables than its literals need.
    have allowed : formula.varCount ≤ Var.maxCount := by
      rw [ofNonempty, varCount_ofClauses_filter]
      exact usedVarCount_le formula
    obtain ⟨parser, isRun, _, taken⟩ := exists_readBack fits allowed
    have parsedAgain :
        parse [.bytes (Utf8.asciiBytes (textOf (formulaWords formula)))] = .ok formula := by
      rw [parse_of_run_ok isRun, taken, ← ofNonempty]
    refine ⟨parsedAgain, ?_, ?_⟩
    · simp only [rewritten, parsed, isText, Except.toOption]
    · simp only [rewritten, parsedAgain, isText, Except.toOption]

/-- An empty clause is written but not read back, and one variable more than there are is too
many. -/
theorem parse_writtenBytes_limits :
    (∃ (text : List UInt8) (parser : Parser),
      writtenBytes (.ofClauses [[Var.last.negative], []]) = .ok text ∧
      parse [.bytes text] = .ok parser.takeFormula.1 ∧
      parser.takeFormula.1.clauses = [[Var.last.negative]] ∧
      parser.header = some ⟨0x10000000, 2⟩ ∧ parser.checkHeader ≠ .ok ()) ∧
    ∃ text, writtenBytes (Formula.empty.setVarCount 0x10000001) = .ok text ∧
      parse [.bytes text] = .error (.parse (.line 1
        (.literalTooLarge (String.ofList (Numeral.natural 0x10000001))))) := by
  constructor
  · obtain ⟨text, isText, reads, _⟩ :=
      parse_writtenBytes (.ofClauses [[Var.last.negative], []]) ⟨by decide, by decide⟩
    obtain ⟨parser, _, parsed, readBack⟩ := reads (by decide)
    refine ⟨text, parser, isText, parsed, readBack.clauses, readBack.header, ?_⟩
    intro agrees
    exact (readBack.checkHeader.mp agrees).1 (by decide)
  · obtain ⟨text, isText, _, refuses, _⟩ :=
      parse_writtenBytes (Formula.empty.setVarCount 0x10000001) ⟨by decide, by decide⟩
    exact ⟨text, isText, refuses (by decide)⟩

end Clausal.Dimacs
