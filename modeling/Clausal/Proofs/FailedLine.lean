import Clausal.Proofs.AsciiText
import Clausal.Proofs.EarlyTakes

/-!
# A line that fails

A parser that fails has what the lines before the faulty one gave it, and nothing of the faulty
line.  From then on it refuses every input and does not change (`giveAll_failed`).
-/

set_option autoImplicit false

namespace Clausal.Dimacs.Parser

def withNewlines (lines : List (List UInt8)) : List UInt8 :=
  lines.flatMap fun line => line ++ [newline]

theorem Input.lines_withNewlines {lines : List (List UInt8)}
    (inside : ∀ line ∈ lines, newline ∉ line) :
    (Input.chunk (withNewlines lines)).lines [] = lines := by
  induction lines with
  | nil => rfl
  | cons line rest inductionHypothesis =>
      have lineInside := inside line List.mem_cons_self
      have restInside : ∀ other ∈ rest, newline ∉ other := by
        intro other member
        exact inside other (List.mem_cons_of_mem line member)
      have first : withNewlines (line :: rest) = line ++ newline :: withNewlines rest := by
        rw [withNewlines, List.flatMap_cons, List.append_assoc, List.singleton_append, withNewlines]
      have cut := lines_chunk_newline lineInside (withNewlines rest)
      rw [inductionHypothesis restInside] at cut
      rw [first]
      exact cut

section Stops

variable {start parsed : Parser} {lines : List (List UInt8)} {rest : List UInt8}
  {outcome : Parser × Except ParseError Unit}

/-- Lines without a fault are read to their end. -/
theorem Became.exists_ok (became : Became start lines rest outcome)
    (noFault : start.contentAfter lines = .ok parsed) :
    ∃ next, outcome = (next, .ok ()) ∧ next.content = parsed := by
  cases became with
  | @read next works waiting content =>
      rw [content] at noFault
      exact ⟨next, rfl, Except.ok.inj noFault⟩
  | @stopped next before line later fault number failed cleared split content offends =>
      have stops : next.contentAfter (line :: later) = .error fault := by
        rw [contentAfter, List.map_cons, List.foldlM_cons, offends]
        rfl
      rw [split, contentAfter_append content, stops] at noFault
      cases noFault

theorem readLine_of_content {parser other : Parser} {text : List Char} {fault : LineFault}
    (same : parser.content = other.content) (offends : other.content.readLine text = .error fault) :
    parser.readLine text = .error fault := by
  rw [← same, readLine_content] at offends
  cases read : parser.readLine text with
  | ok next =>
      rw [read] at offends
      cases offends
  | error other =>
      rw [read] at offends
      cases offends
      rfl

end Stops

/-! ## After a failure -/

theorem failed_perform {parser : Parser} (failed : parser.failed = true) (calls : List Call) :
    (parser.perform calls).last.failed = true ∧
      (parser.perform calls).answers =
        (calls.filter Call.isGive).map fun _ => .error .previousError := by
  induction calls generalizing parser with
  | nil => exact ⟨failed, rfl⟩
  | cons call later inductionHypothesis =>
      cases call with
      | give input =>
          obtain ⟨lastFailed, answers⟩ := inductionHypothesis failed
          simp only [perform, give_of_failed failed, List.filter_cons, Call.isGive, if_true,
            List.map_cons, answers]
          exact ⟨lastFailed, trivial⟩
      | take =>
          have takenFailed : parser.takeFormula.2.failed = true := failed
          exact inductionHypothesis takenFailed

theorem last_perform_of_failed {parser : Parser} (failed : parser.failed = true)
    {calls : List Call} (inputs : ∀ call ∈ calls, call.isGive = true) :
    (parser.perform calls).last = parser := by
  induction calls with
  | nil => rfl
  | cons call later inductionHypothesis =>
      cases call with
      | give input =>
          have laterInputs : ∀ other ∈ later, other.isGive = true := by
            intro other member
            exact inputs other (List.mem_cons_of_mem _ member)
          simp only [perform, give_of_failed failed]
          exact inductionHypothesis laterInputs
      | take => cases inputs .take List.mem_cons_self

/-- The first error comes from a line after lines without a fault.  The parser then has what a
parser has that was given these lines only.  It refuses every input after that, whatever the calls
are, and no input changes it. -/
theorem giveAll_failed {lineNumber : Nat} {inputs : List Input} {failed : Parser}
    {error : ParseError} (fails : (startingAt lineNumber).giveAll inputs = (failed, .error error)) :
    (∃ before line later kept number fault,
      Input.linesOfAll [] inputs = before ++ line :: later ∧ error = .line number fault ∧
      (startingAt lineNumber).feed (withNewlines before) = (kept, .ok ()) ∧
      kept.readLine (lineText line) = .error fault ∧
      failed.formula = kept.formula ∧ failed.varCount = kept.varCount ∧
      failed.clauseCount = kept.clauseCount ∧ failed.header = kept.header) ∧
    ∀ calls, (failed.perform calls).answers =
        ((calls.filter Call.isGive).map fun _ => .error .previousError) ∧
      (failed.perform (calls.filter Call.isGive)).last = failed ∧
      ∀ input, (failed.perform calls).last.give input =
        ((failed.perform calls).last, .error .previousError) := by
  have atStart : newline ∉ (startingAt lineNumber).pending.toList := List.not_mem_nil
  have became := became_giveAll rfl atStart inputs
  rw [fails] at became
  cases became with
  | @stopped _ before line later fault number isFailed cleared split parsed offends =>
      constructor
      · have inside : ∀ other ∈ before, newline ∉ other := by
          intro other member
          have isLine : other ∈ Input.linesOfAll (startingAt lineNumber).pending.toList inputs := by
            rw [split]
            exact List.mem_append_left _ member
          exact Input.newline_notMem_of_mem_linesOfAll atStart isLine
        have fed := became_give rfl atStart (.chunk (withNewlines before))
        have onlyBefore : (Input.chunk (withNewlines before)).lines
            (startingAt lineNumber).pending.toList = before := Input.lines_withNewlines inside
        rw [onlyBefore] at fed
        obtain ⟨kept, isKept, sameContent⟩ := fed.exists_ok parsed
        refine ⟨before, line, later, kept, number, fault, split, rfl, isKept,
          readLine_of_content sameContent offends, ?_⟩
        obtain ⟨sameFormula, sameHeader, sameVars, sameClauses⟩ := content_eq_iff.mp sameContent
        exact ⟨sameFormula.symm, sameVars.symm, sameClauses.symm, sameHeader.symm⟩
      · intro calls
        obtain ⟨lastFailed, answers⟩ := failed_perform isFailed calls
        refine ⟨answers, last_perform_of_failed isFailed ?_, give_of_failed lastFailed⟩
        intro call member
        exact (List.mem_filter.mp member).2

/-- A line fails that was begun after the end of the input had ended another one. -/
theorem giveAll_failed_after_ending :
    ∃ failed, (startingAt 1).giveAll [.chunk (Utf8.asciiBytes "1 0\n-2".toList), .ending,
        .chunk (Utf8.asciiBytes "2 x\n3 0\n".toList)] =
          (failed, .error (.line 2 (.invalidLiteral "x"))) ∧
      failed.formula.clauses.map (·.map Lit.toInt) = [[1], [-2]] ∧
      (∃ before kept, (startingAt 1).feed (withNewlines before) = (kept, .ok ()) ∧
        failed.formula = kept.formula) ∧
      ∀ input, failed.give input = (failed, .error .previousError) := by
  have clauses : ((startingAt 1).giveAll [.chunk (Utf8.asciiBytes "1 0\n-2".toList), .ending,
      .chunk (Utf8.asciiBytes "2 x\n3 0\n".toList)]).1.formula.clauses.map (·.map Lit.toInt) =
        [[1], [-2]] := by decide +kernel
  obtain ⟨failed, fails⟩ : ∃ failed, (startingAt 1).giveAll
      [.chunk (Utf8.asciiBytes "1 0\n-2".toList), .ending,
        .chunk (Utf8.asciiBytes "2 x\n3 0\n".toList)] =
          (failed, .error (.line 2 (.invalidLiteral "x"))) :=
    ⟨_, Prod.ext rfl (by decide +kernel)⟩
  rw [fails] at clauses
  obtain ⟨⟨before, _, _, kept, _, _, _, _, isKept, _, sameFormula, _⟩, refuses⟩ :=
    giveAll_failed fails
  exact ⟨failed, fails, clauses, ⟨before, kept, isKept, sameFormula⟩, (refuses []).2.2⟩

end Clausal.Dimacs.Parser
