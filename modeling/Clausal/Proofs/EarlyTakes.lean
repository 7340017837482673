import Clausal.Proofs.GivenLines

/-!
# Taking clauses out early

The clauses that a parser holds can be taken out of it at any time.  A parser out of which they are
taken goes on like one that keeps them (`Beside`), so all that is taken, in order, are the clauses
that a run without early takes ends with, and nothing else about the parser changes
(`perform_takes`).
-/

set_option autoImplicit false

namespace Clausal.Dimacs.Parser

inductive Call
  | give (input : Input)
  | take
  deriving DecidableEq

def Call.isGive : Call → Bool
  | .give _ => true
  | .take => false

structure Transcript where
  /-- The parser after the calls. -/
  last : Parser
  /-- The answers to inputs, in order. -/
  answers : List (Except ParseError Unit)
  /-- The formulas taken out, in order. -/
  taken : List Formula

def perform (parser : Parser) : List Call → Transcript
  | [] => ⟨parser, [], []⟩
  | .give input :: later =>
      let outcome := parser.give input
      let transcript := outcome.1.perform later
      { transcript with answers := outcome.2 :: transcript.answers }
  | .take :: later =>
      let taking := parser.takeFormula
      let transcript := taking.2.perform later
      { transcript with taken := taking.1 :: transcript.taken }

theorem perform_append (parser : Parser) (calls later : List Call) :
    parser.perform (calls ++ later) =
      { last := ((parser.perform calls).last.perform later).last
        answers := (parser.perform calls).answers ++
          ((parser.perform calls).last.perform later).answers
        taken := (parser.perform calls).taken ++
          ((parser.perform calls).last.perform later).taken } := by
  induction calls generalizing parser with
  | nil => rfl
  | cons call rest inductionHypothesis =>
      cases call with
      | give input => simp only [List.cons_append, perform, inductionHypothesis]
      | take => simp only [List.cons_append, perform, inductionHypothesis]

/-- A parser out of which formulas were taken, beside one that was given the same and keeps its
clauses. -/
structure Beside (taken : List Formula) (taking keeping : Parser) : Prop where
  same : taking = keeping.withFormula taking.formula
  clauses : taken.flatMap Formula.clauses ++ taking.formula.clauses = keeping.formula.clauses
  varCount_le : taking.formula.varCount ≤ keeping.varCount
  reading : Reading keeping

theorem beside_startingAt (lineNumber : Nat) :
    Beside [] (startingAt lineNumber) (startingAt lineNumber) where
  same := rfl
  clauses := rfl
  varCount_le := Nat.le_refl 0
  reading := reading_startingAt lineNumber

section Beside

variable {taken : List Formula} {taking keeping : Parser}

theorem give_withFormula (parser : Parser) (input : Input) :
    Grows (fun start => start.give input) parser := by
  cases input with
  | chunk bytes => exact feed_withFormula parser bytes
  | ending => exact finish_withFormula parser

theorem Reading.varCount_eq {parser : Parser} (reading : Reading parser) :
    parser.varCount = Formula.countFor parser.formula.clauses.flatten := by
  obtain ⟨texts, holds⟩ := reading.holds
  exact holds.varCount_eq

/-- Both parsers answer alike, and what is new is new in both. -/
theorem Beside.give (beside : Beside taken taking keeping) (input : Input) :
    (taking.give input).2 = (keeping.give input).2 ∧
      Beside taken (taking.give input).1 (keeping.give input).1 := by
  obtain ⟨new, grows⟩ := give_withFormula keeping input
  have takingRun := grows taking.formula
  have keepingRun := grows keeping.formula
  have nextReading := beside.reading.give input
  rw [← beside.same] at takingRun
  rw [withFormula_self] at keepingRun
  beta_reduce at takingRun
  have grown : (keeping.give input).1.formula =
      new.foldl Formula.addClause keeping.formula :=
    congrArg (fun outcome => outcome.1.formula) keepingRun
  rw [takingRun]
  refine ⟨rfl, rfl, ?_, ?_, nextReading⟩
  · change taken.flatMap Formula.clauses ++
      (new.foldl Formula.addClause taking.formula).clauses = _
    rw [grown, Formula.clauses_foldl_addClause, Formula.clauses_foldl_addClause,
      ← List.append_assoc, beside.clauses]
  · change (new.foldl Formula.addClause taking.formula).varCount ≤ (keeping.give input).1.varCount
    have before := beside.varCount_le
    rw [beside.reading.varCount_eq] at before
    rw [nextReading.varCount_eq, grown, Formula.clauses_foldl_addClause,
      Formula.varCount_foldl_addClause, List.flatten_append, Formula.countFor_append]
    omega

theorem Beside.varCount_eq (beside : Beside taken taking keeping) :
    taking.varCount = keeping.varCount := by
  rw [beside.same]
  rfl

theorem Beside.take (beside : Beside taken taking keeping) :
    Beside (taken ++ [taking.takeFormula.1]) taking.takeFormula.2 keeping where
  same := by
    rw [takeFormula, beside.same]
    rfl
  clauses := by
    rw [takeFormula, List.flatMap_append, List.flatMap_singleton, Formula.clauses_setVarCount,
      Formula.clauses_setVarCount, Formula.clauses_empty, List.append_nil]
    exact beside.clauses
  varCount_le := by
    rw [takeFormula, Formula.varCount_setVarCount, beside.varCount_eq]
    exact max_le (Nat.zero_le _) (Nat.le_refl _)
  reading := beside.reading

/-- A formula taken out counts the variables of everything parsed so far. -/
theorem Beside.varCount_takeFormula (beside : Beside taken taking keeping) :
    taking.takeFormula.1.varCount =
      (keeping.formula.clauses.flatten.map fun l => l.var.number).max?.getD 0 := by
  rw [← Formula.countFor_eq_max?, ← beside.reading.varCount_eq, takeFormula,
    Formula.varCount_setVarCount, beside.varCount_eq]
  exact max_eq_right beside.varCount_le

theorem Beside.perform (beside : Beside taken taking keeping) (calls : List Call) :
    (taking.perform calls).answers = (keeping.perform (calls.filter Call.isGive)).answers ∧
      Beside (taken ++ (taking.perform calls).taken) (taking.perform calls).last
        (keeping.perform (calls.filter Call.isGive)).last := by
  induction calls generalizing taken taking keeping with
  | nil =>
      refine ⟨rfl, ?_⟩
      rw [Parser.perform, List.append_nil]
      exact beside
  | cons call later inductionHypothesis =>
      cases call with
      | give input =>
          obtain ⟨sameAnswer, nextBeside⟩ := beside.give input
          obtain ⟨sameAnswers, lastBeside⟩ := inductionHypothesis nextBeside
          refine ⟨?_, lastBeside⟩
          simp only [Parser.perform, List.filter_cons, Call.isGive, if_true, sameAnswer,
            sameAnswers]
      | take =>
          obtain ⟨sameAnswers, lastBeside⟩ := inductionHypothesis beside.take
          refine ⟨sameAnswers, ?_⟩
          rw [List.append_assoc] at lastBeside
          exact lastBeside

end Beside

/-- The formulas taken out of a parser, followed by a last one, have the clauses that a run without
early takes ends with.  The answers to inputs and all else about the parser are the same, and every
formula taken out counts the variables of everything parsed so far. -/
theorem perform_takes (lineNumber : Nat) (calls : List Call) :
    let taking := (startingAt lineNumber).perform calls
    let keeping := (startingAt lineNumber).perform (calls.filter Call.isGive)
    (taking.taken ++ [taking.last.takeFormula.1]).flatMap Formula.clauses =
      keeping.last.takeFormula.1.clauses ∧
    taking.answers = keeping.answers ∧
    taking.last.lineNumber = keeping.last.lineNumber ∧
    taking.last.header = keeping.last.header ∧
    taking.last.varCount = keeping.last.varCount ∧
    taking.last.clauseCount = keeping.last.clauseCount ∧
    taking.last.checkHeader = keeping.last.checkHeader ∧
    ∀ later, ∃ formula rest,
      ((startingAt lineNumber).perform (calls ++ .take :: later)).taken =
        taking.taken ++ formula :: rest ∧
      formula.varCount =
        (keeping.last.takeFormula.1.clauses.flatten.map fun l => l.var.number).max?.getD 0 := by
  intro taking keeping
  obtain ⟨sameAnswers, beside⟩ := (beside_startingAt lineNumber).perform calls
  rw [List.nil_append] at beside
  have same : taking.last = keeping.last.withFormula taking.last.formula := beside.same
  have parsed : keeping.last.takeFormula.1.clauses = keeping.last.formula.clauses := rfl
  rw [parsed]
  refine ⟨?_, sameAnswers, ?_⟩
  · rw [List.flatMap_append, List.flatMap_singleton]
    exact beside.clauses
  · rw [same]
    refine ⟨rfl, rfl, rfl, rfl, rfl, ?_⟩
    intro later
    rw [perform_append]
    exact ⟨_, _, rfl, beside.varCount_takeFormula⟩

end Clausal.Dimacs.Parser
