import Clausal.Proofs.LoadedClauses
import Clausal.Proofs.Verdict

/-!
# The calls of a solver

A solver is used through a sequence of calls, in any order.  Only the calls that add clauses change
which clauses it has collected (`clauses_after`), so every solve decides just the clauses that were
added before it, whatever was configured and whatever was solved in between (`solve_after`).
-/

set_option autoImplicit false

namespace Clausal.Solver

inductive Call
  | configure (update : ConfigUpdate)
  | addFormula (formula : Formula)
  | addDimacs (input : List Dimacs.Piece)
  | solve

namespace Call

def apply (solver : Solver) : Call → Solver
  | .configure update => solver.configure update
  | .addFormula formula => solver.addFormula formula
  | .addDimacs input => (solver.addDimacs input).solver
  | .solve => solver.solve.solver

def clauses : Call → List (List Lit)
  | .addFormula formula => formula.clauses
  | .addDimacs input => Dimacs.clausesOf input
  | .configure _ | .solve => []

theorem clauses_apply (solver : Solver) (call : Call) :
    (call.apply solver).formula.clauses = solver.formula.clauses ++ call.clauses := by
  cases call with
  | configure update => exact (List.append_nil _).symm
  | addFormula formula => exact Formula.clauses_append solver.formula formula
  | addDimacs input => exact clauses_addDimacs solver input
  | solve =>
      rw [apply, formula_solve]
      exact (List.append_nil _).symm

end Call

def after (calls : List Call) : Solver :=
  calls.foldl Call.apply .new

theorem clauses_foldl_apply (solver : Solver) (calls : List Call) :
    (calls.foldl Call.apply solver).formula.clauses =
      solver.formula.clauses ++ calls.flatMap Call.clauses := by
  induction calls generalizing solver with
  | nil => exact (List.append_nil _).symm
  | cons call rest inductionHypothesis =>
      rw [List.foldl_cons, inductionHypothesis, Call.clauses_apply, List.append_assoc,
        List.flatMap_cons]

theorem clauses_after (calls : List Call) :
    (after calls).formula.clauses = calls.flatMap Call.clauses :=
  clauses_foldl_apply .new calls

/-- A solve after any calls answers whether the clauses they added are satisfiable, and every
configuration gives this answer. -/
theorem solve_after (calls : List Call) :
    ∃ sat, (after calls).solve.answer = .ok sat ∧
      (sat = true ↔ Satisfiable (calls.flatMap Call.clauses)) ∧
      ∀ update, ((after calls).configure update).solve.answer = .ok sat := by
  obtain ⟨sat, answered, satIff⟩ := solve_answer (after calls)
  refine ⟨sat, answered, ?_, ?_⟩
  · rw [← clauses_after]
    exact satIff
  · intro update
    obtain ⟨other, otherAnswered, otherIff⟩ := solve_answer ((after calls).configure update)
    have same : other = sat := by
      rw [Bool.eq_iff_iff]
      exact otherIff.trans satIff.symm
    rw [otherAnswered, same]

end Clausal.Solver
