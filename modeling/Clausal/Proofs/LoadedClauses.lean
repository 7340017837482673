import Clausal.Solver

/-!
# Loading clauses piece by piece

What a parser does with its input does not depend on the clauses it still holds: these only grow
at their end (`feed_withFormula`).  So a reader that takes the clauses out after every chunk
collects just those that a reader who never takes any finds in the parser
(`clauses_addDimacs`), also when the reading fails halfway.
-/

set_option autoImplicit false

namespace Clausal

namespace Formula

theorem clauses_foldl_addClause (formula : Formula) (new : List (List Lit)) :
    (new.foldl addClause formula).clauses = formula.clauses ++ new := by
  induction new generalizing formula with
  | nil => rw [List.foldl_nil, List.append_nil]
  | cons lits rest inductionHypothesis =>
      rw [List.foldl_cons, inductionHypothesis, clauses_addClause, List.append_assoc,
        List.singleton_append]

theorem clauses_append (formula other : Formula) :
    (formula.append other).clauses = formula.clauses ++ other.clauses := by
  rw [append, clauses_setVarCount, clauses_foldl_addClause]

end Formula

namespace Dimacs

namespace Parser

def withFormula (parser : Parser) (formula : Formula) : Parser := { parser with formula }

@[simp] theorem failed_withFormula (parser : Parser) (formula : Formula) :
    (parser.withFormula formula).failed = parser.failed := rfl

@[simp] theorem pending_withFormula (parser : Parser) (formula : Formula) :
    (parser.withFormula formula).pending = parser.pending := rfl

theorem withFormula_self (parser : Parser) : parser.withFormula parser.formula = parser := rfl

/-- A function of parsers that adds clauses but does not look at the clauses held. -/
def Grows {α : Type} (step : Parser → Parser × α) (parser : Parser) : Prop :=
  ∃ new : List (List Lit), ∀ formula, step (parser.withFormula formula) =
    ((step parser).1.withFormula (new.foldl Formula.addClause formula), (step parser).2)

theorem addClause_withFormula (parser : Parser) (lits : List Lit) :
    ∃ new : List (List Lit), ∀ formula, (parser.withFormula formula).addClause lits =
      (parser.addClause lits).withFormula (new.foldl Formula.addClause formula) := by
  by_cases empty : lits.isEmpty
  · refine ⟨[], fun formula => ?_⟩
    rw [addClause, addClause, if_pos empty, if_pos empty]
    rfl
  · refine ⟨[lits], fun formula => ?_⟩
    rw [addClause, addClause, if_neg empty, if_neg empty]
    rfl

theorem readLine_withFormula (parser : Parser) (text : List Char) :
    ∃ new : List (List Lit), ∀ formula, (parser.withFormula formula).readLine text =
      (parser.readLine text).map fun next =>
        next.withFormula (new.foldl Formula.addClause formula) := by
  cases line : Line.ofText text with
  | skipped =>
      refine ⟨[], fun formula => ?_⟩
      simp only [readLine, line]
      rfl
  | clause tokens =>
      cases read : readClause tokens with
      | error fault =>
          refine ⟨[], fun formula => ?_⟩
          simp only [readLine, line, read]
          rfl
      | ok lits =>
          obtain ⟨new, added⟩ := addClause_withFormula parser lits
          refine ⟨new, fun formula => ?_⟩
          simp only [readLine, line, read, Except.map, added formula]
  | problem varCount clauseCount =>
      refine ⟨[], fun formula => ?_⟩
      have sameHeader : (parser.withFormula formula).header = parser.header := rfl
      simp only [readLine, line, sameHeader]
      split
      · rfl
      · cases readHeader text varCount clauseCount <;> rfl

theorem finishLine_withFormula (parser : Parser) : Grows finishLine parser := by
  obtain ⟨new, read⟩ := readLine_withFormula { parser with pending := #[] }
    (trimBlanks (Utf8.decodeLossy parser.pending.toList))
  have readOther : ∀ formula,
      readLine { parser.withFormula formula with pending := #[] }
        (trimBlanks (Utf8.decodeLossy (parser.withFormula formula).pending.toList)) = _ := read
  cases line : readLine { parser with pending := #[] }
      (trimBlanks (Utf8.decodeLossy parser.pending.toList)) with
  | error fault =>
      refine ⟨[], fun formula => ?_⟩
      simp only [finishLine, readOther, line, Except.map]
      rfl
  | ok next =>
      refine ⟨new, fun formula => ?_⟩
      simp only [finishLine, readOther, line, Except.map]

theorem feedBytes_withFormula (parser : Parser) (chunk : List UInt8) :
    Grows (fun start => start.feedBytes chunk) parser := by
  induction chunk generalizing parser with
  | nil => exact ⟨[], fun _ => rfl⟩
  | cons byte rest inductionHypothesis =>
      by_cases isNewline : byte = newline
      · obtain ⟨new, grows⟩ := finishLine_withFormula parser
        cases finished : parser.finishLine with
        | mk next answer =>
            cases answer with
            | error error =>
                refine ⟨new, fun formula => ?_⟩
                simp only [feedBytes, if_pos isNewline, grows formula, finished]
            | ok done =>
                obtain ⟨more, restGrows⟩ :=
                  inductionHypothesis { next with lineNumber := next.lineNumber + 1 }
                refine ⟨new ++ more, fun formula => ?_⟩
                simp only [feedBytes, if_pos isNewline, grows formula, finished]
                rw [List.foldl_append]
                exact restGrows (new.foldl Formula.addClause formula)
      · obtain ⟨more, restGrows⟩ :=
          inductionHypothesis { parser with pending := parser.pending.push byte }
        refine ⟨more, fun formula => ?_⟩
        simp only [feedBytes, if_neg isNewline]
        exact restGrows formula

theorem feed_withFormula (parser : Parser) (chunk : List UInt8) :
    Grows (fun start => start.feed chunk) parser := by
  by_cases failed : parser.failed
  · refine ⟨[], fun formula => ?_⟩
    simp only [feed, failed_withFormula, failed, if_true]
    rfl
  · obtain ⟨new, grows⟩ := feedBytes_withFormula parser chunk
    refine ⟨new, fun formula => ?_⟩
    simp only [feed, failed_withFormula, failed]
    exact grows formula

theorem finish_withFormula (parser : Parser) : Grows finish parser := by
  by_cases failed : parser.failed
  · refine ⟨[], fun formula => ?_⟩
    simp only [finish, failed_withFormula, failed, if_true]
    rfl
  · by_cases nothingPending : parser.pending.isEmpty
    · refine ⟨[], fun formula => ?_⟩
      simp only [finish, failed_withFormula, pending_withFormula, failed, nothingPending, if_true]
      rfl
    · obtain ⟨new, grows⟩ := finishLine_withFormula parser
      refine ⟨new, fun formula => ?_⟩
      simp only [finish, failed_withFormula, pending_withFormula, failed, nothingPending]
      exact grows formula

end Parser

def keepParser : Visitor Parser Empty := fun _ parser => (parser, .ok parser)

/-- The clauses of an input up to its end, or up to the chunk before a failure. -/
def clausesOf (input : List Piece) : List (List Lit) :=
  (readWith keepParser .new input).1.formula.clauses

end Dimacs

/-- A solver that has taken the clauses out of one parser, beside another parser that still holds
all of them. -/
structure Collecting (start : List (List Lit)) (solver : Solver) (taking keeping : Dimacs.Parser) :
    Prop where
  same : taking = keeping.withFormula taking.formula
  taken : taking.formula.clauses = []
  collected : solver.formula.clauses = start ++ keeping.formula.clauses

def EndAlike (start : List (List Lit)) :
    Solver × Except (Dimacs.ReadError Empty) Dimacs.Parser →
      Dimacs.Parser × Except (Dimacs.ReadError Empty) Dimacs.Parser → Prop
  | (solver, .ok taking), (held, .ok keeping) =>
      held = keeping ∧ Collecting start solver taking keeping
  | (solver, .error _), (held, .error _) => solver.formula.clauses = start ++ held.formula.clauses
  | _, _ => False

section Collecting

variable {start : List (List Lit)} {solver : Solver} {taking keeping : Dimacs.Parser}

/-- Both parsers fail at the same place, or the solver can take what both have parsed. -/
theorem Collecting.step (collecting : Collecting start solver taking keeping)
    {advance : Dimacs.Parser → Dimacs.Parser × Except Dimacs.ParseError Unit}
    (grows : Dimacs.Parser.Grows advance keeping) :
    (∃ fed kept error, advance taking = (fed, .error error) ∧
      advance keeping = (kept, .error error)) ∨
    (∃ fed kept after next, advance taking = (fed, .ok ()) ∧ advance keeping = (kept, .ok ()) ∧
      solver.takeParsed fed = (after, .ok next) ∧ Collecting start after next kept) := by
  obtain ⟨new, grown⟩ := grows
  have takingRun := grown taking.formula
  rw [← collecting.same] at takingRun
  have keepingRun := grown keeping.formula
  rw [Dimacs.Parser.withFormula_self] at keepingRun
  cases advanced : advance keeping with
  | mk kept answer =>
      rw [advanced] at takingRun keepingRun
      cases answer with
      | error error => exact .inl ⟨_, kept, error, takingRun, rfl⟩
      | ok done =>
          have keptClauses : kept.formula.clauses = keeping.formula.clauses ++ new := by
            rw [← Formula.clauses_foldl_addClause]
            exact congrArg (fun run => run.1.formula.clauses) keepingRun
          have movedClauses : (new.foldl Formula.addClause taking.formula).clauses = new := by
            rw [Formula.clauses_foldl_addClause, collecting.taken, List.nil_append]
          refine .inr ⟨_, kept, _, _, takingRun, rfl, rfl, rfl, rfl, ?_⟩
          calc (solver.formula.append _).clauses
              = solver.formula.clauses ++ (new.foldl Formula.addClause taking.formula).clauses :=
                Formula.clauses_append solver.formula _
            _ = start ++ kept.formula.clauses := by
                rw [movedClauses, collecting.collected, keptClauses, List.append_assoc]

theorem feedChunks_endAlike (collecting : Collecting start solver taking keeping)
    (chunks : List (List UInt8)) :
    EndAlike start (Dimacs.feedChunks Solver.takeParsed solver taking chunks)
      (Dimacs.feedChunks Dimacs.keepParser keeping keeping chunks) := by
  induction chunks generalizing solver taking keeping with
  | nil => exact ⟨rfl, collecting⟩
  | cons chunk rest inductionHypothesis =>
      rcases collecting.step (Dimacs.Parser.feed_withFormula keeping chunk) with
        ⟨fed, kept, error, takingFed, keepingFed⟩ |
        ⟨fed, kept, after, next, takingFed, keepingFed, visited, collectingNext⟩
      · simp only [Dimacs.feedChunks, takingFed, keepingFed]
        exact collecting.collected
      · simp only [Dimacs.feedChunks, takingFed, keepingFed, visited, Dimacs.keepParser]
        exact inductionHypothesis collectingNext

theorem readWith_endAlike (solver : Solver) (input : List Dimacs.Piece) :
    EndAlike solver.formula.clauses (Dimacs.readWith Solver.takeParsed solver input)
      (Dimacs.readWith Dimacs.keepParser .new input) := by
  have atStart : Collecting solver.formula.clauses solver .new .new :=
    ⟨rfl, rfl, (List.append_nil _).symm⟩
  have chunksAlike := feedChunks_endAlike atStart (Dimacs.chunks input).1
  simp only [Dimacs.readWith]
  revert chunksAlike
  rcases Dimacs.feedChunks Solver.takeParsed solver .new (Dimacs.chunks input).1 with
    ⟨after, _ | taking⟩ <;>
  rcases Dimacs.feedChunks Dimacs.keepParser .new .new (Dimacs.chunks input).1 with
    ⟨held, _ | keeping⟩
  · exact id
  · exact False.elim
  · exact False.elim
  · rintro ⟨rfl, collecting⟩
    cases (Dimacs.chunks input).2 with
    | some text => exact collecting.collected
    | none =>
        rcases collecting.step (Dimacs.Parser.finish_withFormula held) with
          ⟨fed, kept, error, takingFed, keepingFed⟩ |
          ⟨fed, kept, last, next, takingFed, keepingFed, visited, collectingNext⟩
        · simp only [takingFed, keepingFed]
          exact collecting.collected
        · simp only [takingFed, keepingFed, visited, Dimacs.keepParser]
          exact ⟨rfl, collectingNext⟩

/-- The solver gets the clauses of the input, also when the reading fails. -/
theorem clauses_addDimacs (solver : Solver) (input : List Dimacs.Piece) :
    (solver.addDimacs input).solver.formula.clauses =
      solver.formula.clauses ++ Dimacs.clausesOf input := by
  have alike := readWith_endAlike solver input
  rw [Dimacs.clausesOf, Solver.addDimacs]
  revert alike
  rcases Dimacs.readWith Solver.takeParsed solver input with ⟨after, _ | taking⟩ <;>
  rcases Dimacs.readWith Dimacs.keepParser .new input with ⟨held, _ | keeping⟩
  · exact id
  · exact False.elim
  · exact False.elim
  · rintro ⟨rfl, collecting⟩
    exact collecting.collected

end Collecting

end Clausal
