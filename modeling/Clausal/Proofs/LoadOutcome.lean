import Clausal.Proofs.GivenLines

/-!
# What a reading leaves in the solver

The solver takes the clauses out of the parser after every chunk.  After any number of chunks it
is as if the clauses of all lines that ended in them had been added at once (`Handing`).  A reading
that succeeds is therefore the same as adding what is parsed of all bytes, and one that fails leaves
the clauses of the lines that ended before the chunk that failed (`addDimacs_outcome`).
-/

set_option autoImplicit false

namespace Clausal

namespace Dimacs

/-- The bytes that an input delivers before it ends, and the failure that it ends in if any. -/
def delivery : List Piece → List UInt8 × Option String
  | [] => ([], none)
  | .failure text :: _ => ([], some text)
  | .bytes [] :: _ => ([], none)
  | .bytes (byte :: data) :: rest => (byte :: data ++ (delivery rest).1, (delivery rest).2)

def endedLines (bytes : List UInt8) : List (List Char) := (linesOf bytes).dropLast

def parsedChunks (parser : Parser) : List (List UInt8) → List (List UInt8)
  | [] => []
  | chunk :: rest =>
      match parser.feed chunk with
      | (next, .ok ()) => chunk :: parsedChunks next rest
      | (_, .error _) => []

theorem chunks_delivery (input : List Piece) :
    (chunks input).1.flatten = (delivery input).1 ∧ (chunks input).2 = (delivery input).2 := by
  fun_induction delivery input with
  | case1 | case2 | case3 => exact ⟨rfl, rfl⟩
  | case4 byte data rest inductionHypothesis =>
      obtain ⟨sameBytes, sameEnd⟩ := inductionHypothesis
      refine ⟨?_, sameEnd⟩
      rw [chunks, List.flatten_append, flatten_chunksOf, sameBytes]

theorem delivery_bytes (bytes : List UInt8) : delivery [.bytes bytes] = (bytes, none) := by
  cases bytes with
  | nil => rfl
  | cons byte rest => rw [delivery, delivery, List.append_nil]

section ParsedChunks

variable {parser next : Parser} {chunk : List UInt8} {rest : List (List UInt8)}

theorem parsedChunks_cons_of_ok (fed : parser.feed chunk = (next, .ok ())) :
    parsedChunks parser (chunk :: rest) = chunk :: parsedChunks next rest := by
  simp only [parsedChunks, fed]

theorem parsedChunks_cons_of_error {error : ParseError}
    (fed : parser.feed chunk = (next, .error error)) :
    parsedChunks parser (chunk :: rest) = [] := by
  simp only [parsedChunks, fed]

end ParsedChunks

namespace Parser

theorem feed_eq_feedBytes {parser : Parser} (works : parser.failed = false) (chunk : List UInt8) :
    parser.feed chunk = parser.feedBytes chunk := by
  rw [feed, works, if_neg (by decide)]

/-- Bytes that are taken without an error complete the lines that end in them. -/
theorem holds_endedLines {bytes : List UInt8} {next : Parser}
    (fed : Parser.new.feedBytes bytes = (next, .ok ())) : Holds (endedLines bytes) next := by
  have works : Parser.new.failed = false := rfl
  have became := became_feedBytes works List.not_mem_nil bytes
  rw [fed] at became
  cases became with
  | read works waiting parsed =>
      have holds := holds_of_contentAfter holds_new parsed
      rw [endedLines, linesOf, ← List.map_dropLast]
      exact holds

end Parser

end Dimacs

/-! ## Handing over after every chunk -/

/-- What a solver has become when some chunks were parsed, out of which a formula was made. -/
def Solver.afterChunks (start : Solver) (parsed : List (List UInt8)) (formula : Formula) : Solver :=
  if parsed = [] then start else start.addFormula formula

/-- A solver and the parser out of which it takes clauses, beside a parser that was fed the same
chunks and keeps its clauses. -/
structure Handing (start : Solver) (parsed : List (List UInt8)) (solver : Solver)
    (taking keeping : Dimacs.Parser) : Prop where
  reached : Dimacs.Parser.new.feedBytes parsed.flatten = (keeping, .ok ())
  same : taking = keeping.withFormula (Formula.empty.setVarCount keeping.varCount)
  handed : solver = start.afterChunks parsed keeping.formula

theorem handing_new (start : Solver) : Handing start [] start .new .new := ⟨rfl, rfl, rfl⟩

section Handing

variable {start solver : Solver} {parsed : List (List UInt8)} {chunk : List UInt8}
  {taking keeping kept : Dimacs.Parser}
  {advance : Dimacs.Parser → Dimacs.Parser × Except Dimacs.ParseError Unit}

theorem Handing.addFormula_eq (handing : Handing start parsed solver taking keeping)
    (more : Formula) :
    solver.addFormula more = (start.addFormula keeping.formula).addFormula more := by
  have reached := handing.reached
  rw [handing.handed, Solver.afterChunks]
  split
  · next noChunk =>
      subst noChunk
      cases reached
      have nothingAdded : start.formula.append Dimacs.Parser.new.formula = start.formula :=
        Formula.append_empty start.formula
      rw [Solver.addFormula, Solver.addFormula, Solver.addFormula, nothingAdded]
  · rfl

/-- Adding what was parsed and then what is new is adding all at once. -/
theorem Handing.append_new (handing : Handing start parsed solver taking keeping)
    {new : List (List Lit)} (grown : kept.formula = new.foldl Formula.addClause keeping.formula)
    {lines : List (List Char)} (keptHolds : Dimacs.Holds lines kept) :
    (start.formula.append keeping.formula).append
        ((new.foldl Formula.addClause (Formula.empty.setVarCount keeping.varCount)).setVarCount
          kept.varCount) =
      start.formula.append kept.formula := by
  have holds := Dimacs.Parser.holds_endedLines handing.reached
  have keptClauses : kept.formula.clauses = keeping.formula.clauses ++ new := by
    rw [grown, Formula.clauses_foldl_addClause]
  -- What is taken counts the variables of all that was parsed before, so both sides need the same.
  apply Formula.ext_clauses
  · have counted := holds.varCount_eq
    have sameCount := holds.varCount
    have keptCounted := keptHolds.varCount_eq
    have keptSameCount := keptHolds.varCount
    have noVariable : Formula.empty.varCount = 0 := rfl
    rw [keptClauses, List.flatten_append, Formula.countFor_append] at keptCounted
    simp only [Formula.varCount_append, Formula.varCount_setVarCount,
      Formula.varCount_foldl_addClause, Formula.clauses_setVarCount,
      Formula.clauses_foldl_addClause, Formula.clauses_empty, List.nil_append, keptClauses,
      List.flatten_append, Formula.countFor_append, ← sameCount, ← counted, ← keptSameCount,
      keptCounted, noVariable, Nat.max_self, Nat.zero_max]
    omega
  · rw [Formula.clauses_append, Formula.clauses_append, Formula.clauses_append, keptClauses,
      Formula.clauses_setVarCount, Formula.clauses_foldl_addClause, Formula.clauses_setVarCount,
      Formula.clauses_empty, List.nil_append, List.append_assoc]

/-- What the solver takes after one more step is what the step adds to the clauses kept. -/
theorem Handing.takeParsed (handing : Handing start parsed solver taking keeping)
    (grows : Dimacs.Parser.Grows advance keeping) (advanced : advance keeping = (kept, .ok ()))
    {lines : List (List Char)} (keptHolds : Dimacs.Holds lines kept) :
    ∃ fed, advance taking = (fed, .ok ()) ∧
      solver.takeParsed fed = (start.addFormula kept.formula,
        .ok (kept.withFormula (Formula.empty.setVarCount kept.varCount))) := by
  obtain ⟨new, grown⟩ := grows
  have takingRun := grown (Formula.empty.setVarCount keeping.varCount)
  have keepingRun := grown keeping.formula
  rw [← handing.same, advanced] at takingRun
  rw [Dimacs.Parser.withFormula_self, advanced] at keepingRun
  have keptFormula : kept.formula = new.foldl Formula.addClause keeping.formula :=
    congrArg (fun run => run.1.formula) keepingRun
  have sameFormula := handing.append_new keptFormula keptHolds
  refine ⟨_, takingRun, congrArg (fun after => (after, _)) ?_⟩
  rw [handing.addFormula_eq, Solver.addFormula, Solver.addFormula, Solver.addFormula, ← sameFormula]
  rfl

theorem Handing.fails (handing : Handing start parsed solver taking keeping)
    (grows : Dimacs.Parser.Grows advance keeping) {error : Dimacs.ParseError}
    (failed : advance keeping = (kept, .error error)) :
    ∃ fed, advance taking = (fed, .error error) := by
  obtain ⟨new, grown⟩ := grows
  have takingRun := grown (Formula.empty.setVarCount keeping.varCount)
  rw [← handing.same, failed] at takingRun
  exact ⟨_, takingRun⟩

theorem Handing.feedBytes_eq (handing : Handing start parsed solver taking keeping)
    (chunk : List UInt8) :
    Dimacs.Parser.new.feedBytes (parsed ++ [chunk]).flatten = keeping.feed chunk := by
  have works : keeping.failed = false := Dimacs.Parser.failed_of_feedBytes handing.reached
  rw [List.flatten_append, Dimacs.Parser.feedBytes_append, handing.reached,
    Dimacs.Parser.feed_eq_feedBytes works, List.flatten_singleton]
  rfl

/-- After one more chunk that is parsed the solver has its clauses too. -/
theorem Handing.step (handing : Handing start parsed solver taking keeping)
    (fed : keeping.feed chunk = (kept, .ok ())) :
    ∃ fedTaking after next, taking.feed chunk = (fedTaking, .ok ()) ∧
      solver.takeParsed fedTaking = (after, .ok next) ∧
      Handing start (parsed ++ [chunk]) after next kept := by
  have reached := (handing.feedBytes_eq chunk).trans fed
  obtain ⟨fedTaking, takingFed, taken⟩ := handing.takeParsed
    (Dimacs.Parser.feed_withFormula keeping chunk) fed (Dimacs.Parser.holds_endedLines reached)
  refine ⟨fedTaking, _, _, takingFed, taken, reached, rfl, ?_⟩
  rw [Solver.afterChunks, if_neg (by simp)]

end Handing

section Reading

variable {start solver : Solver} {parsed : List (List UInt8)} {taking keeping : Dimacs.Parser}

/-- The chunks are all parsed, or the reading stops at the first one that fails. -/
theorem Handing.feedChunks (handing : Handing start parsed solver taking keeping)
    (chunks : List (List UInt8)) :
    (∃ after next kept, Dimacs.feedChunks Solver.takeParsed solver taking chunks =
        (after, .ok next) ∧ Dimacs.parsedChunks keeping chunks = chunks ∧
        Handing start (parsed ++ chunks) after next kept) ∨
      ∃ after next kept last error, Dimacs.feedChunks Solver.takeParsed solver taking chunks =
        (after, .error (.parse error)) ∧
        Handing start (parsed ++ Dimacs.parsedChunks keeping chunks) after next kept ∧
        Dimacs.Parser.new.feedBytes (parsed ++ chunks).flatten = (last, .error error) := by
  -- `Handing` goes from chunk to chunk; the parser that keeps its clauses tells which one fails.
  induction chunks generalizing parsed solver taking keeping with
  | nil =>
      refine .inl ⟨solver, taking, keeping, rfl, rfl, ?_⟩
      rw [List.append_nil]
      exact handing
  | cons chunk rest inductionHypothesis =>
      have fedBytes := handing.feedBytes_eq chunk
      rcases fed : keeping.feed chunk with ⟨kept, error | done⟩
      · obtain ⟨fedTaking, takingFails⟩ :=
          handing.fails (Dimacs.Parser.feed_withFormula keeping chunk) fed
        refine .inr ⟨solver, taking, keeping, kept, error, ?_, ?_, ?_⟩
        · simp only [Dimacs.feedChunks, takingFails]
        · rw [Dimacs.parsedChunks_cons_of_error fed, List.append_nil]
          exact handing
        · rw [List.append_cons, List.flatten_append, Dimacs.Parser.feedBytes_append, fedBytes, fed]
          rfl
      · obtain ⟨fedTaking, after, next, takingFed, taken, nextHanding⟩ := handing.step fed
        have goesOn : Dimacs.feedChunks Solver.takeParsed solver taking (chunk :: rest) =
            Dimacs.feedChunks Solver.takeParsed after next rest := by
          simp only [Dimacs.feedChunks, takingFed, taken]
        rw [goesOn, Dimacs.parsedChunks_cons_of_ok fed, List.append_cons parsed chunk rest,
          List.append_cons parsed chunk (Dimacs.parsedChunks kept rest), List.cons.injEq, eq_self,
          true_and]
        exact inductionHypothesis nextHanding

/-- The end of the input hands over what its last line holds, or fails. -/
theorem Handing.finish (handing : Handing start parsed solver taking keeping) :
    (∃ formula fed next, Dimacs.parse [.bytes parsed.flatten] = .ok formula ∧
      taking.finish = (fed, .ok ()) ∧
      solver.takeParsed fed = (start.addFormula formula, .ok next)) ∨
    ∃ error fed, Dimacs.parse [.bytes parsed.flatten] = .error (.parse error) ∧
      taking.finish = (fed, .error error) := by
  have runs := Dimacs.Parser.run_singleton parsed.flatten
  have ends := Dimacs.run_ends parsed.flatten
  rw [handing.reached] at runs
  have endOfInput := Dimacs.Parser.finish_withFormula keeping
  rcases finished : keeping.finish with ⟨last, error | done⟩
  · have isRun := runs.trans finished
    obtain ⟨fed, fails⟩ := handing.fails endOfInput finished
    exact .inr ⟨error, fed, Dimacs.parse_of_run_error isRun, fails⟩
  · have isRun := runs.trans finished
    rw [isRun] at ends
    obtain ⟨_, holds⟩ := ends
    have isParsed := Dimacs.parse_of_run_ok isRun
    rw [holds.takeFormula] at isParsed
    obtain ⟨fed, takingFinished, taken⟩ := handing.takeParsed endOfInput finished holds
    exact .inl ⟨last.formula, fed, _, isParsed, takingFinished, taken⟩

/-- How a reading ends: all bytes arrive and are accepted, and the solver adds what is parsed of
them, or it fails and has the clauses of the chunks before the failure. -/
inductive LoadEnds (solver : Solver) (input : List Dimacs.Piece) : Prop
  | loaded (formula : Formula) (log : Array Record)
      (arrived : (Dimacs.delivery input).2 = none)
      (accepted : Dimacs.parse [.bytes (Dimacs.delivery input).1] = .ok formula)
      (outcome : solver.addDimacs input = ⟨solver.addFormula formula, log, .ok ()⟩)
  | failed (kept : Dimacs.Parser) (error : Dimacs.ReadError Empty)
      (cause : (Dimacs.delivery input).2 = none → ∃ fault,
        Dimacs.parse [.bytes (Dimacs.delivery input).1] = .error fault)
      (reached : Dimacs.Parser.new.feedBytes
        (Dimacs.parsedChunks .new (Dimacs.chunks input).1).flatten = (kept, .ok ()))
      (outcome : solver.addDimacs input =
        ⟨solver.afterChunks (Dimacs.parsedChunks .new (Dimacs.chunks input).1) kept.formula, #[],
          .error error⟩)

theorem loadEnds (solver : Solver) (input : List Dimacs.Piece) : LoadEnds solver input := by
  obtain ⟨sameBytes, sameEnd⟩ := Dimacs.chunks_delivery input
  rcases (handing_new solver).feedChunks (Dimacs.chunks input).1 with
    ⟨after, next, kept, reading, allParsed, handing⟩ |
    ⟨after, next, kept, last, error, reading, handing, stops⟩
  · rw [List.nil_append] at handing
    have reached := handing.reached
    have handed := handing.handed
    have finishes := handing.finish
    rw [← allParsed] at reached handed
    rw [sameBytes] at finishes
    cases arrived : (Dimacs.delivery input).2 with
    | some text =>
        refine .failed kept (.input text) (by simp [arrived]) reached ?_
        simp only [Solver.addDimacs, Dimacs.readWith, reading, sameEnd, arrived, handed]
    | none =>
        rcases finishes with
          ⟨formula, fed, rest, accepted, finished, taken⟩ | ⟨error, fed, rejected, fails⟩
        · refine .loaded formula (Solver.parsedLog rest) arrived accepted ?_
          simp only [Solver.addDimacs, Dimacs.readWith, reading, sameEnd, arrived, finished, taken]
        · refine .failed kept (.parse error) (fun _ => ⟨_, rejected⟩) reached ?_
          simp only [Solver.addDimacs, Dimacs.readWith, reading, sameEnd, arrived, fails, handed]
  · rw [List.nil_append] at handing stops
    rw [sameBytes] at stops
    refine .failed kept (.parse error) (fun _ => ?_) handing.reached ?_
    · have runs := Dimacs.Parser.run_singleton (Dimacs.delivery input).1
      rw [stops] at runs
      exact ⟨_, Dimacs.parse_of_run_error runs⟩
    · simp only [Solver.addDimacs, Dimacs.readWith, reading, handing.handed]

section Delivered

variable {solver : Solver} {input : List Dimacs.Piece}

/-- Bytes that are accepted are loaded as what is parsed of them, wherever they are cut. -/
theorem addDimacs_of_accepted (arrived : (Dimacs.delivery input).2 = none) {formula : Formula}
    (accepted : Dimacs.parse [.bytes (Dimacs.delivery input).1] = .ok formula) :
    (solver.addDimacs input).answer = .ok () ∧
      (solver.addDimacs input).solver = solver.addFormula formula := by
  rcases loadEnds solver input with ⟨parsed, _, _, isParsed, outcome⟩ | ⟨_, _, cause, _, _⟩
  · rw [accepted] at isParsed
    cases isParsed
    rw [outcome]
    exact ⟨rfl, rfl⟩
  · obtain ⟨fault, rejected⟩ := cause arrived
    rw [accepted] at rejected
    cases rejected

/-- A success says that all bytes arrived and were accepted. -/
theorem accepted_of_addDimacs (succeeds : (solver.addDimacs input).answer = .ok ()) :
    (Dimacs.delivery input).2 = none ∧
      ∃ formula, Dimacs.parse [.bytes (Dimacs.delivery input).1] = .ok formula := by
  rcases loadEnds solver input with ⟨formula, _, arrived, accepted, _⟩ | ⟨_, _, _, _, outcome⟩
  · exact ⟨arrived, formula, accepted⟩
  · rw [outcome] at succeeds
    cases succeeds

end Delivered

/-- A reading succeeds exactly when all bytes arrive and are accepted.  Then the solver is as if
what is parsed of the bytes had been added at once.  If it fails, the solver has the clauses of the
lines that ended in the chunks before the one that failed, and is the same as before if there is no
such chunk. -/
theorem addDimacs_outcome (solver : Solver) (input : List Dimacs.Piece) :
    ((solver.addDimacs input).answer = .ok () ↔
      (Dimacs.delivery input).2 = none ∧
        ∃ formula, Dimacs.parse [.bytes (Dimacs.delivery input).1] = .ok formula) ∧
    ((solver.addDimacs input).answer = .ok () → ∀ formula,
      Dimacs.parse [.bytes (Dimacs.delivery input).1] = .ok formula →
        (solver.addDimacs input).solver = solver.addFormula formula ∧
        (solver.addDimacs input).solver.formula.clauses =
          solver.formula.clauses ++ formula.clauses ∧
        (solver.addDimacs input).solver.formula.varCount =
          max solver.formula.varCount formula.varCount) ∧
    (∀ error, (solver.addDimacs input).answer = .error error →
      ∃ parsed written, parsed = Dimacs.parsedChunks .new (Dimacs.chunks input).1 ∧
        List.Forall₂ Dimacs.Writes (Dimacs.endedLines parsed.flatten) written ∧
        (solver.addDimacs input).solver.formula.clauses =
          solver.formula.clauses ++ written.filter (fun lits => !lits.isEmpty) ∧
        (parsed = [] → (solver.addDimacs input).solver = solver) ∧
        (parsed ≠ [] → (solver.addDimacs input).solver =
          solver.addFormula (.ofClauses (written.filter fun lits => !lits.isEmpty)))) := by
  refine ⟨⟨accepted_of_addDimacs, ?_⟩, ?_, ?_⟩
  · intro accepts
    obtain ⟨arrived, formula, accepted⟩ := accepts
    exact (addDimacs_of_accepted arrived accepted).1
  · intro succeeds formula accepted
    obtain ⟨arrived, _⟩ := accepted_of_addDimacs succeeds
    rw [(addDimacs_of_accepted arrived accepted).2]
    refine ⟨rfl, Formula.clauses_append _ _, ?_⟩
    rw [Solver.addFormula, Formula.varCount_append, ← Dimacs.varCount_of_parse accepted,
      Nat.max_self]
  · intro error fails
    rcases loadEnds solver input with ⟨_, _, _, _, outcome⟩ | ⟨kept, _, _, reached, outcome⟩
    · rw [outcome] at fails
      cases fails
    · obtain ⟨written, lineByLine, isFormula⟩ := (Dimacs.Parser.holds_endedLines reached).written
      rw [outcome, isFormula]
      refine ⟨_, written, rfl, lineByLine, ?_, ?_, ?_⟩
      · rw [Solver.afterChunks]
        split
        · next noChunk =>
            rw [noChunk] at lineByLine
            cases lineByLine
            exact (List.append_nil _).symm
        · rw [Solver.addFormula, Formula.clauses_append, Formula.clauses_ofClauses]
      · intro noChunk
        rw [Solver.afterChunks, if_pos noChunk]
      · intro someChunk
        rw [Solver.afterChunks, if_neg someChunk]

end Reading

end Clausal
