import Clausal.Proofs.LoadOutcome
import Clausal.Proofs.RoundTrip
import Clausal.Proofs.Verdict

/-!
# Exchanging formulas as text

A clause without literals is written as a line without literals, and such a line yields no clause.
So what a solver loads of a written formula are its clauses with literals.  They decide like the
formula unless an empty clause is all that makes it unsatisfiable (`solve_exchanged`).
-/

set_option autoImplicit false

namespace Clausal

theorem satisfiable_iff_nonempty (clauses : List (List Lit)) :
    Satisfiable clauses ↔
      [] ∉ clauses ∧ Satisfiable (clauses.filter fun lits => !lits.isEmpty) := by
  constructor
  · intro satisfiable
    refine ⟨fun empty => not_satisfiable_of_nil_mem empty satisfiable, ?_⟩
    obtain ⟨valuation, models⟩ := satisfiable
    refine ⟨valuation, ?_⟩
    intro lits member
    exact models lits (List.mem_filter.mp member).1
  · intro both
    obtain ⟨noneEmpty, valuation, models⟩ := both
    refine ⟨valuation, ?_⟩
    intro lits member
    refine models lits (List.mem_filter.mpr ⟨member, ?_⟩)
    rw [Bool.not_eq_true', List.isEmpty_eq_false_iff]
    intro empty
    rw [empty] at member
    exact noneEmpty member

/-- The text of a formula is loaded as its clauses with literals, wherever it is cut. -/
theorem addDimacs_written {formula : Formula} (fits : Dimacs.FitsWords formula)
    (allowed : formula.varCount ≤ Var.maxCount) :
    ∃ text, Dimacs.writtenBytes formula = .ok text ∧
      ∀ (solver : Solver) (input : List Dimacs.Piece), Dimacs.delivery input = (text, none) →
        (solver.addDimacs input).answer = .ok () ∧
        (solver.addDimacs input).solver =
          solver.addFormula (.ofClauses (formula.clauses.filter fun lits => !lits.isEmpty)) := by
  obtain ⟨parser, isRun, _, taken⟩ := Dimacs.exists_readBack fits allowed
  have accepted := Dimacs.parse_of_run_ok isRun
  rw [taken] at accepted
  refine ⟨_, Dimacs.writtenBytes_eq formula, ?_⟩
  intro solver input delivers
  have arrived : (Dimacs.delivery input).2 = none := congrArg Prod.snd delivers
  refine addDimacs_of_accepted arrived ?_
  rw [delivers]
  exact accepted

/-- The verdict on a formula that was added to a solver without clauses. -/
theorem solve_addFormula {solver : Solver} (noClause : solver.formula.clauses = [])
    (formula : Formula) :
    ∃ sat, (solver.addFormula formula).solve.answer = .ok sat ∧
      (sat = true ↔ Satisfiable formula.clauses) := by
  have clauses : (solver.addFormula formula).formula.clauses = formula.clauses := by
    rw [Solver.addFormula, Formula.clauses_append, noClause, List.nil_append]
  obtain ⟨sat, answered, satIff⟩ := (solver.addFormula formula).solve_answer
  rw [clauses] at satIff
  exact ⟨sat, answered, satIff⟩

/-- A new solver that loads the text of a formula decides the clauses with literals, and one that
is given the formula itself decides all of them.  The answers are the same unless the formula has
an empty clause and its other clauses are satisfiable. -/
theorem solve_exchanged (formula : Formula) (update : ConfigUpdate)
    (fits : Dimacs.FitsWords formula) (allowed : formula.varCount ≤ Var.maxCount) :
    ∃ text, Dimacs.writtenBytes formula = .ok text ∧
      ∀ input, Dimacs.delivery input = (text, none) →
        ((Solver.new.configure update).addDimacs input).answer = .ok () ∧
        ∃ direct loaded,
          ((Solver.new.configure update).addFormula formula).solve.answer = .ok direct ∧
          ((Solver.new.configure update).addDimacs input).solver.solve.answer = .ok loaded ∧
          (direct = true ↔ Satisfiable formula.clauses) ∧
          (loaded = true ↔ Satisfiable (formula.clauses.filter fun lits => !lits.isEmpty)) ∧
          (direct = loaded ↔ ¬([] ∈ formula.clauses ∧
            Satisfiable (formula.clauses.filter fun lits => !lits.isEmpty))) := by
  obtain ⟨text, isText, loads⟩ := addDimacs_written fits allowed
  refine ⟨text, isText, ?_⟩
  intro input delivers
  obtain ⟨succeeds, after⟩ := loads (Solver.new.configure update) input delivers
  refine ⟨succeeds, ?_⟩
  have noClause : (Solver.new.configure update).formula.clauses = [] := rfl
  obtain ⟨direct, directAnswer, directIff⟩ := solve_addFormula noClause formula
  obtain ⟨loaded, loadedAnswer, loadedIff⟩ := solve_addFormula noClause
    (.ofClauses (formula.clauses.filter fun lits => !lits.isEmpty))
  rw [Formula.clauses_ofClauses] at loadedIff
  rw [after]
  refine ⟨direct, loaded, directAnswer, loadedAnswer, directIff, loadedIff, ?_⟩
  rw [Bool.eq_iff_iff, directIff, loadedIff, satisfiable_iff_nonempty formula.clauses]
  tauto

/-- Two clauses that clash are unsatisfiable for both solvers. -/
theorem solve_exchanged_clash :
    ∃ text, Dimacs.writtenBytes (.ofClauses [[Var.last.negative], [Var.last.positive]]) = .ok text ∧
      ∃ answer,
        ((Solver.new.configure {}).addFormula
          (.ofClauses [[Var.last.negative], [Var.last.positive]])).solve.answer = .ok answer ∧
        ((Solver.new.configure {}).addDimacs [.bytes text]).solver.solve.answer = .ok answer := by
  obtain ⟨text, isText, exchanged⟩ := solve_exchanged
    (.ofClauses [[Var.last.negative], [Var.last.positive]]) {} ⟨by decide, by decide⟩ (by decide)
  obtain ⟨_, direct, loaded, directAnswer, loadedAnswer, _, _, same⟩ :=
    exchanged [.bytes text] (Dimacs.delivery_bytes text)
  have noneEmpty :
      [] ∉ (Formula.ofClauses [[Var.last.negative], [Var.last.positive]]).clauses := by decide
  obtain rfl := same.mpr fun both => noneEmpty both.1
  exact ⟨text, isText, direct, directAnswer, loadedAnswer⟩

/-- The formula of one empty clause is unsatisfiable, but its text is loaded as no clause. -/
theorem solve_exchanged_empty_clause :
    ∃ text, Dimacs.writtenBytes (.ofClauses [[]]) = .ok text ∧
      (Solver.new.addFormula (.ofClauses [[]])).solve.answer = .ok false ∧
      (Solver.new.addDimacs [.bytes text]).answer = .ok () ∧
      (Solver.new.addDimacs [.bytes text]).solver.solve.answer = .ok true := by
  have fits : Dimacs.FitsWords (.ofClauses [[]]) := ⟨by decide, by decide⟩
  have noClause : Solver.new.formula.clauses = [] := rfl
  obtain ⟨text, isText, loads⟩ := addDimacs_written fits (by decide)
  obtain ⟨succeeds, after⟩ := loads Solver.new [.bytes text] (Dimacs.delivery_bytes text)
  obtain ⟨direct, directAnswer, directIff⟩ := solve_addFormula noClause (.ofClauses [[]])
  obtain ⟨loaded, loadedAnswer, loadedIff⟩ := solve_addFormula noClause
    (.ofClauses ((Formula.ofClauses [[]]).clauses.filter fun lits => !lits.isEmpty))
  rw [Formula.clauses_ofClauses] at directIff loadedIff
  have unsatisfiable : ¬Satisfiable [[]] := not_satisfiable_of_nil_mem (by simp)
  have satisfiable : Satisfiable ((Formula.ofClauses [[]]).clauses.filter fun lits =>
      !lits.isEmpty) := ⟨fun _ => true, by simp [Valuation.Models, Formula.clauses_ofClauses]⟩
  obtain rfl : direct = false := Bool.eq_false_iff.mpr fun isTrue =>
    unsatisfiable (directIff.mp isTrue)
  obtain rfl : loaded = true := loadedIff.mpr satisfiable
  rw [← after] at loadedAnswer
  exact ⟨text, isText, directAnswer, succeeds, loadedAnswer⟩

end Clausal
