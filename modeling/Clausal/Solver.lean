import Clausal.Config
import Clausal.Dimacs.Reader
import Clausal.Elimination
import Clausal.ModelCheck
import Clausal.Saturation
import Clausal.Search

/-!
# The solver

A solver collects clauses and decides them with the configured procedure.  Every solve starts
from scratch.  Adding clauses takes the verdict and the model of the last solve back.
-/

set_option autoImplicit false

namespace Clausal

inductive Verdict
  | unknown
  | sat
  | unsat
  deriving DecidableEq, Repr

structure Solver where
  config : Config
  formula : Formula
  verdict : Verdict
  /-- The true literals of the model that the last solve found, if it builds one. -/
  found : Option (List Lit)
  stats : Stats
  deriving DecidableEq

inductive SolveError
  | invalidModel (invalid : InvalidModel)
  | fault (cause : Fault)
  deriving DecidableEq

def SolveError.message : SolveError → String
  | .invalidModel invalid => invalid.message
  | .fault cause => cause.message

structure Reply (ε α : Type) where
  solver : Solver
  log : Array Record
  answer : Except ε α

namespace Solver

def new : Solver := ⟨{}, .empty, .unknown, none, {}⟩

def configure (solver : Solver) (update : ConfigUpdate) : Solver :=
  { solver with config := solver.config.apply update }

def addFormula (solver : Solver) (formula : Formula) : Solver :=
  { solver with
    formula := solver.formula.append formula
    verdict := .unknown
    found := none }

def takeParsed (solver : Solver) (parser : Dimacs.Parser) : Solver × Except Empty Dimacs.Parser :=
  let (formula, rest) := parser.takeFormula
  (solver.addFormula formula, .ok rest)

/-- What is logged of an input that was parsed: its header, a header that disagrees with the
clauses, and the counts. -/
def parsedLog (parser : Dimacs.Parser) : Array Record :=
  let declared := match parser.header with
    | some header => #[.info (s!"Header declares {header.varCount} variables and " ++
        s!"{header.clauseCount} clauses")]
    | none => #[]
  let disagreement := match parser.checkHeader with
    | .error error => #[.warn error.message]
    | .ok () => #[]
  declared ++ disagreement ++ #[.info (s!"Parsed formula with {parser.varCount} variables and " ++
    s!"{parser.clauseCount} clauses")]

/-- Reads DIMACS and adds its clauses, chunk by chunk.  The clauses of the chunks before a failure
stay. -/
def addDimacs (solver : Solver) (input : List Dimacs.Piece) :
    Reply (Dimacs.ReadError Empty) Unit :=
  match Dimacs.readWith takeParsed solver input with
  | (after, .ok parser) => ⟨after, parsedLog parser, .ok ()⟩
  | (after, .error error) => ⟨after, #[], .error error⟩

def runProcedure (solver : Solver) (progress : Progress) : Run (Bool × Option Assignment) :=
  let varCount := solver.formula.varCount
  match solver.config.procedure with
  | .dp => (eliminate solver.formula.normalized varCount progress).map fun model =>
      (model.isSome, model)
  | .dpll =>
      (search solver.formula.withoutRepeats varCount solver.config.pureLiterals progress).map
        fun model => (model.isSome, model)
  | .resolution => (isSatisfiable solver.formula.normalized progress).map fun sat => (sat, none)

def acceptModel (solver : Solver) (model : Option Assignment) : Except InvalidModel Unit :=
  match model with
  | some assignment =>
      if solver.config.checkModel then Clausal.checkModel solver.formula assignment else .ok ()
  | none => .ok ()

def solve (solver : Solver) : Reply SolveError Bool :=
  let start : Progress := ({} : Progress).note (.info
    (s!"Solving {solver.formula.size} clauses over {solver.formula.varCount} variables " ++
      s!"using {solver.config.procedure}"))
  let ⟨progress, result⟩ := solver.runProcedure start
  let reset : Solver := { solver with verdict := .unknown, found := none, stats := progress.stats }
  match result with
  | .error fault => ⟨reset, progress.log, .error (.fault fault)⟩
  | .ok (sat, model) =>
      match solver.acceptModel model with
      | .error invalid => ⟨reset, progress.log, .error (.invalidModel invalid)⟩
      | .ok () =>
          let decided := { reset with
            verdict := if sat then .sat else .unsat
            found := model.map Assignment.trueLits }
          ⟨decided, progress.log, .ok sat⟩

/-- The true literals of the model of the last solve, if it found one and nothing was added
since.  Variables that are not needed may be missing. -/
def model (solver : Solver) : Option (List Lit) :=
  if solver.verdict = .sat then solver.found else none

end Solver

end Clausal
