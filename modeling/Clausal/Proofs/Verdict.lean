import Clausal.Proofs.Backtracking
import Clausal.Proofs.CanonicalModel
import Clausal.Proofs.ClauseForms
import Clausal.Proofs.Refutation
import Clausal.Solver

/-!
# The verdict of a solve

The procedures get the clauses in two forms, with the same literals as the written ones.  Each
procedure ends with the right verdict, and a model that it builds has a true literal in every
clause that is not a tautology (`runProcedure_settles`).  So the check of the model accepts it,
and a solve always answers (`Solver.solve_answer`).
-/

set_option autoImplicit false

namespace Clausal

/-! ## The procedures -/

theorem isSatisfiable_decides (clauses : List Clause) (progress : Progress) :
    ∃ sat, (isSatisfiable clauses progress).result = .ok sat ∧
      (sat = true ↔ Satisfiable (clauses.map Clause.lits)) := by
  have properIff : ∀ c : Clause, c.isTautology = false ↔ Proper c.lits :=
    fun _ => Clause.isTautology_eq_false_iff
  cases simplified : simplify clauses with
  | unsat =>
      have none := not_satisfiable_of_unsat (fun _ => List.isEmpty_iff) simplified
      exact ⟨false, by simp only [isSatisfiable, simplified]; rfl, by simp [none]⟩
  | sat =>
      refine ⟨true, by simp only [isSatisfiable, simplified]; rfl, fun _ => ?_, fun _ => rfl⟩
      refine ⟨fun _ => false, models_iff_proper.mpr ?_⟩
      rintro _ member proper
      obtain ⟨c, inClauses, rfl⟩ := List.mem_map.mp member
      exact absurd proper (not_proper_of_sat properIff simplified inClauses)
  | remaining kept =>
      have sameModels :
          Satisfiable (kept.map Clause.lits) ↔ Satisfiable (clauses.map Clause.lits) :=
        exists_congr fun _ => models_kept_iff properIff simplified
      obtain ⟨outcome, answered, saturated⟩ :=
        saturated_of_saturate (fun c member => ((mem_kept_iff properIff simplified c).mp member).2)
          progress
      rw [← sameModels]
      cases run : saturate kept progress with
      | mk after result =>
          rw [run] at answered
          cases answered
          cases outcome with
          | refuted =>
              refine ⟨false, by simp only [isSatisfiable, simplified, run]; rfl, ?_⟩
              have none : ¬Satisfiable (kept.map Clause.lits) := saturated
              simp [none]
          | closed closure =>
              refine ⟨true, by simp only [isSatisfiable, simplified, run]; rfl, fun _ => ?_,
                fun _ => rfl⟩
              obtain ⟨valuation, models, _⟩ := saturated.exists_model
              exact ⟨valuation, models⟩

/-- The right verdict on the clauses, with a model that settles them if there is one. -/
structure Settled (clauses : List (List Lit)) (outcome : Bool × Option Assignment) : Prop where
  sat_iff : outcome.1 = true ↔ Satisfiable clauses
  model_settles : ∀ assignment, outcome.2 = some assignment → assignment.Settles clauses

theorem settled_of_found {clauses : List (List Lit)} {found : Option Assignment}
    (unsatisfiable : found = none → ¬Satisfiable clauses)
    (settles : ∀ assignment, found = some assignment → assignment.Settles clauses) :
    Settled clauses (found.isSome, found) := by
  cases found with
  | none =>
      refine ⟨?_, settles⟩
      simp [unsatisfiable rfl]
  | some assignment =>
      refine ⟨⟨fun _ => ⟨assignment.completion, ?_⟩, fun _ => rfl⟩, settles⟩
      exact models_of_settles (settles assignment rfl) (extends_completion assignment)

/-- Giving the procedure other forms of the clauses does not change what is settled. -/
theorem Settled.of_map {rewrite : List Lit → List Lit} {clauses : List (List Lit)}
    {outcome : Bool × Option Assignment}
    (settled : Settled (clauses.map rewrite) outcome)
    (sameLits : ∀ lits l, l ∈ rewrite lits ↔ l ∈ lits) : Settled clauses outcome := by
  constructor
  · rw [← satisfiable_map_iff sameLits]
    exact settled.sat_iff
  · intro assignment isModel
    rw [← settles_map_iff sameLits]
    exact settled.model_settles assignment isModel

theorem runProcedure_settles (solver : Solver) (progress : Progress) :
    ∃ outcome, (solver.runProcedure progress).result = .ok outcome ∧
      Settled solver.formula.clauses outcome := by
  cases isProcedure : solver.config.procedure with
  | dp =>
      obtain ⟨found, run, minimizes⟩ :=
        eliminate_minimizes solver.formula.normalized solver.formula.varCount progress
      rw [map_lits_normalized] at minimizes
      refine ⟨(found.isSome, found), ?_, Settled.of_map ?_ mem_lits_ofList⟩
      · simp only [Solver.runProcedure, isProcedure, Run.map, run, Except.map]
      · refine settled_of_found (found_eq_none_iff minimizes).mp ?_
        rintro assignment rfl
        exact LeastModel.settles minimizes
  | dpll =>
      obtain ⟨found, run, decides⟩ := search_found solver.formula.withoutRepeats
        solver.formula.varCount solver.config.pureLiterals progress
      refine ⟨(found.isSome, found), ?_, Settled.of_map ?_ fun _ _ => List.mem_eraseDups⟩
      · simp only [Solver.runProcedure, isProcedure, Run.map, run, Except.map]
      · refine settled_of_found ?_ ?_
        · rintro rfl
          exact decides
        · rintro assignment rfl
          exact decides.2
  | resolution =>
      obtain ⟨sat, run, satIff⟩ := isSatisfiable_decides solver.formula.normalized progress
      rw [map_lits_normalized, satisfiable_map_iff mem_lits_ofList] at satIff
      refine ⟨(sat, none), ?_, satIff, ?_⟩
      · simp only [Solver.runProcedure, isProcedure, Run.map, run, Except.map]
      · intro assignment different
        cases different

/-! ## Solving -/

theorem Assignment.settles_iff {assignment : Assignment} {lits : List Lit} :
    assignment.settles lits = true ↔
      (Proper lits → ∃ l ∈ lits, assignment.isTrue l = true) := by
  have tautologyIff : (Clause.ofList lits).isTautology = true ↔ ¬Proper lits := by
    rw [← isTautologyWritten_eq_false_iff, Bool.not_eq_false]
    rfl
  have satisfiesIff : assignment.satisfies (Clause.ofList lits) = true ↔
      ∃ l ∈ lits, assignment.isTrue l = true := by
    simp only [Assignment.satisfies, List.any_eq_true, mem_lits_ofList]
  rw [Assignment.settles, Bool.or_eq_true, tautologyIff, satisfiesIff, imp_iff_not_or]

theorem checkModel_eq_ok_iff {formula : Formula} {assignment : Assignment} :
    checkModel formula assignment = .ok () ↔
      ∀ lits ∈ formula.clauses, assignment.settles lits = true := by
  rw [checkModel]
  cases found : formula.clauses.find? fun lits => !assignment.settles lits with
  | none => simpa using found
  | some lits =>
      have fails := List.find?_some found
      have member := List.mem_of_find?_eq_some found
      refine iff_of_false (by simp) ?_
      intro settled
      simp [settled lits member] at fails

theorem checkModel_of_settles {formula : Formula} {assignment : Assignment}
    (settles : assignment.Settles formula.clauses) : checkModel formula assignment = .ok () := by
  refine checkModel_eq_ok_iff.mpr ?_
  intro lits member
  exact Assignment.settles_iff.mpr (settles lits member)

theorem acceptModel_of_settled {solver : Solver} {outcome : Bool × Option Assignment}
    (settled : Settled solver.formula.clauses outcome) :
    solver.acceptModel outcome.2 = .ok () := by
  cases model : outcome.2 with
  | none => rfl
  | some assignment =>
      rw [Solver.acceptModel, checkModel_of_settles (settled.model_settles assignment model)]
      exact ite_self _

namespace Solver

/-- Every solve answers, and it answers whether the collected clauses are satisfiable. -/
theorem solve_answer (solver : Solver) :
    ∃ sat, solver.solve.answer = .ok sat ∧
      (sat = true ↔ Satisfiable solver.formula.clauses) := by
  unfold solve
  generalize Progress.note _ _ = start
  obtain ⟨outcome, run, settled⟩ := runProcedure_settles solver start
  have accepted := acceptModel_of_settled settled
  simp only [run, accepted]
  exact ⟨outcome.1, rfl, settled.sat_iff⟩

theorem formula_solve (solver : Solver) : solver.solve.solver.formula = solver.formula := by
  unfold solve
  generalize Progress.note _ _ = start
  dsimp only
  split
  · rfl
  · split <;> rfl

end Solver

end Clausal
