import Mathlib.Data.List.Induction
import Clausal.Proofs.CallHistory
import Clausal.Proofs.LoadOutcome

/-!
# The model of the last solve

A solve replaces the model, and of the other calls only those that hand clauses to the solver take
it back.  Reading DIMACS does so as soon as one chunk is parsed, also when the reading fails later;
a reading that fails in its first chunk leaves the solver as it was.  So there is a model exactly
when the last solve found one and nothing was handed over since, and it has a true literal in every
clause that is held and is not a tautology (`model_after`).
-/

set_option autoImplicit false

namespace Clausal

/-- A reading gets past the first chunk of its input. -/
def Dimacs.ParsesChunk (input : List Dimacs.Piece) : Prop :=
  ∃ chunk rest, (Dimacs.chunks input).1 = chunk :: rest ∧
    (Dimacs.Parser.new.feed chunk).2 = .ok ()

theorem Dimacs.parsesChunk_iff {input : List Piece} :
    ParsesChunk input ↔ parsedChunks .new (chunks input).1 ≠ [] := by
  rw [ParsesChunk]
  cases (chunks input).1 with
  | nil => simp [parsedChunks]
  | cons chunk rest =>
      rcases fed : Parser.new.feed chunk with ⟨next, error | done⟩
      · rw [parsedChunks_cons_of_error fed]
        simp [fed]
      · rw [parsedChunks_cons_of_ok fed]
        simp [fed]

namespace Solver

/-! ## One call -/

theorem model_eq_none_of_unknown {solver : Solver} (unknown : solver.verdict = .unknown) :
    solver.model = none := by
  rw [model, unknown]
  rfl

/-- A procedure that builds models gives one with every positive answer, and only then. -/
theorem runProcedure_isSome_iff {solver : Solver} {progress : Progress}
    {outcome : Bool × Option Assignment}
    (run : (solver.runProcedure progress).result = .ok outcome) :
    outcome.2.isSome ↔ outcome.1 = true ∧ solver.config.procedure ≠ .resolution := by
  cases isProcedure : solver.config.procedure with
  | dp =>
      simp only [runProcedure, isProcedure] at run
      obtain ⟨found, _, rfl⟩ := Run.map_result_eq_ok_iff.mp run
      simp
  | dpll =>
      simp only [runProcedure, isProcedure] at run
      obtain ⟨found, _, rfl⟩ := Run.map_result_eq_ok_iff.mp run
      simp
  | resolution =>
      simp only [runProcedure, isProcedure] at run
      obtain ⟨sat, _, rfl⟩ := Run.map_result_eq_ok_iff.mp run
      simp

/-- A solve shows the model that the procedure built, if it built one. -/
theorem model_solve (solver : Solver) :
    ∃ outcome : Bool × Option Assignment, Settled solver.formula.clauses outcome ∧
      (outcome.2.isSome ↔ outcome.1 = true ∧ solver.config.procedure ≠ .resolution) ∧
      solver.solve.answer = .ok outcome.1 ∧
      solver.solve.solver.model = outcome.2.map Assignment.trueLits := by
  unfold solve
  generalize Progress.note _ _ = start
  obtain ⟨outcome, run, settled⟩ := runProcedure_settles solver start
  have accepted := acceptModel_of_settled settled
  have builds := runProcedure_isSome_iff run
  refine ⟨outcome, settled, builds, ?_⟩
  simp only [run, accepted, model]
  obtain ⟨sat, found⟩ := outcome
  cases sat with
  | true => exact ⟨trivial, if_pos rfl⟩
  | false =>
      cases found with
      | none => exact ⟨trivial, if_neg (by simp)⟩
      | some assignment => exact absurd (builds.mp rfl).1 (by simp)

/-! ## Reading -/

/-- The call hands clauses to the solver, be it none. -/
def Call.HandsOver (solver : Solver) : Call → Prop
  | .configure _ | .solve => False
  | .addFormula _ => True
  | .addDimacs input => (solver.addDimacs input).answer = .ok () ∨ Dimacs.ParsesChunk input

/-- Reading DIMACS hands something over, or fails and leaves the solver as it was. -/
theorem addDimacs_handsOver_or (solver : Solver) (input : List Dimacs.Piece) :
    (Call.HandsOver solver (.addDimacs input) ∧
      (solver.addDimacs input).solver.verdict = .unknown) ∨
    (¬Call.HandsOver solver (.addDimacs input) ∧ (solver.addDimacs input).solver = solver) := by
  rw [Call.HandsOver, Dimacs.parsesChunk_iff]
  rcases loadEnds solver input with ⟨formula, log, _, _, outcome⟩ | ⟨kept, error, _, _, outcome⟩
  · rw [outcome]
    exact .inl ⟨.inl rfl, rfl⟩
  · rw [outcome, afterChunks]
    by_cases noChunk : Dimacs.parsedChunks .new (Dimacs.chunks input).1 = []
    · rw [if_pos noChunk]
      exact .inr ⟨by simp [noChunk], rfl⟩
    · rw [if_neg noChunk]
      exact .inl ⟨.inr noChunk, rfl⟩

/-! ## Every history -/

/-- A model that is shown is ascending and has a true literal in every clause that is held and is
not a tautology. -/
def ModelFits (solver : Solver) : Prop :=
  ∀ m, solver.model = some m → m.Pairwise (fun l k => l.var < k.var) ∧
    ∀ lits ∈ solver.formula.clauses, Proper lits → ∃ l ∈ lits, l ∈ m

theorem modelFits_of_unknown {solver : Solver} (unknown : solver.verdict = .unknown) :
    solver.ModelFits := by
  intro m shown
  rw [model_eq_none_of_unknown unknown] at shown
  cases shown

theorem modelFits_solve (solver : Solver) : solver.solve.solver.ModelFits := by
  obtain ⟨outcome, settled, _, _, shows⟩ := model_solve solver
  intro m shown
  rw [shows] at shown
  obtain ⟨assignment, isModel, rfl⟩ := Option.map_eq_some_iff.mp shown
  refine ⟨assignment.ascending, ?_⟩
  intro lits member proper
  rw [formula_solve] at member
  obtain ⟨l, inClause, isTrue⟩ := settled.model_settles assignment isModel lits member proper
  exact ⟨l, inClause, Assignment.isTrue_iff.mp isTrue⟩

theorem modelFits_apply {solver : Solver} (fits : solver.ModelFits) (call : Call) :
    (call.apply solver).ModelFits := by
  cases call with
  | configure update => exact fits
  | addFormula formula => exact modelFits_of_unknown rfl
  | addDimacs input =>
      rcases addDimacs_handsOver_or solver input with ⟨_, unknown⟩ | ⟨_, same⟩
      · exact modelFits_of_unknown unknown
      · rw [Call.apply, same]
        exact fits
  | solve => exact modelFits_solve solver

theorem modelFits_after (calls : List Call) : (after calls).ModelFits := by
  induction calls using List.reverseRecOn with
  | nil => exact modelFits_of_unknown rfl
  | append_singleton calls call inductionHypothesis =>
      rw [after, List.foldl_append]
      exact modelFits_apply inductionHypothesis call

/-- The last solve of a history answered that there is a model, with a procedure that builds it,
and no later call handed clauses over. -/
def ModelStands (calls : List Call) : Prop :=
  ∃ before later, calls = before ++ .solve :: later ∧ .solve ∉ later ∧
    (after before).solve.answer = .ok true ∧ (after before).config.procedure ≠ .resolution ∧
    ∀ earlier call, earlier ++ [call] <+: later →
      ¬call.HandsOver (after (before ++ .solve :: earlier))

theorem modelStands_nil : ¬ModelStands [] := by
  rintro ⟨before, later, split, _⟩
  simp at split

theorem modelStands_append_iff {calls : List Call} {call : Call} :
    ModelStands (calls ++ [call]) ↔
      (call = .solve ∧ (after calls).solve.answer = .ok true ∧
        (after calls).config.procedure ≠ .resolution) ∨
      (call ≠ .solve ∧ ¬call.HandsOver (after calls) ∧ ModelStands calls) := by
  constructor
  · rintro ⟨before, later, split, lastSolve, answered, builds, nothingAdded⟩
    -- The one more call is the last solve, or comes after it.
    rcases List.eq_nil_or_concat later with rfl | ⟨others, last, rfl⟩
    · obtain ⟨rfl, isSolve⟩ := List.append_inj' split rfl
      exact .inl ⟨List.singleton_inj.mp isSolve, answered, builds⟩
    · rw [List.concat_eq_append, ← List.cons_append, ← List.append_assoc] at split
      obtain ⟨rfl, isLast⟩ := List.append_inj' split rfl
      obtain rfl := List.singleton_inj.mp isLast
      rw [List.concat_eq_append] at lastSolve nothingAdded
      refine .inr ⟨?_, nothingAdded others call List.prefix_rfl, before, others, rfl, ?_, answered,
        builds, ?_⟩
      · rintro rfl
        exact lastSolve (by simp)
      · intro member
        exact lastSolve (List.mem_append_left _ member)
      · intro earlier other isPrefix
        exact nothingAdded earlier other (isPrefix.trans (List.prefix_append others [call]))
  · rintro (⟨rfl, answered, builds⟩ | ⟨other, nothingNow, before, later, rfl, lastSolve, answered,
      builds, nothingAdded⟩)
    · refine ⟨calls, [], rfl, by simp, answered, builds, ?_⟩
      intro earlier call isPrefix
      simp at isPrefix
    · refine ⟨before, later ++ [call], by simp, ?_, answered, builds, ?_⟩
      · intro member
        rcases List.mem_append.mp member with old | new
        · exact lastSolve old
        · exact other (List.mem_singleton.mp new).symm
      · intro earlier last isPrefix
        rcases List.prefix_concat_iff.mp isPrefix with whole | inside
        · obtain ⟨rfl, isLast⟩ := List.append_inj' whole rfl
          obtain rfl := List.singleton_inj.mp isLast
          exact nothingNow
        · exact nothingAdded earlier last inside

theorem isSome_model_apply {solver : Solver} {call : Call} :
    (call.apply solver).model.isSome ↔
      (call = .solve ∧ solver.solve.answer = .ok true ∧ solver.config.procedure ≠ .resolution) ∨
      (call ≠ .solve ∧ ¬call.HandsOver solver ∧ solver.model.isSome) := by
  cases call with
  | configure update =>
      have same : (solver.configure update).model = solver.model := rfl
      simp [Call.apply, Call.HandsOver, same]
  | addFormula formula => simp [Call.apply, Call.HandsOver, addFormula, model]
  | addDimacs input =>
      rcases addDimacs_handsOver_or solver input with ⟨handsOver, unknown⟩ | ⟨keeps, same⟩
      · simp [Call.apply, handsOver, model_eq_none_of_unknown unknown]
      · simp [Call.apply, keeps, same]
  | solve =>
      obtain ⟨outcome, _, builds, answered, shows⟩ := model_solve solver
      simp [Call.apply, shows, answered, builds]

theorem isSome_model_after (calls : List Call) :
    (after calls).model.isSome ↔ ModelStands calls := by
  induction calls using List.reverseRecOn with
  | nil =>
      constructor
      · intro shown
        cases shown
      · intro stands
        exact absurd stands modelStands_nil
  | append_singleton calls call inductionHypothesis =>
      rw [modelStands_append_iff, ← inductionHypothesis, after, List.foldl_append]
      exact isSome_model_apply

/-- After any calls there is a model exactly when the last solve found one and nothing was handed
over since.  It is ascending, and every clause that is held and is not a tautology has a literal of
it. -/
theorem model_after (calls : List Call) :
    ((after calls).model.isSome ↔ ModelStands calls) ∧
      ∀ m, (after calls).model = some m → m.Pairwise (fun l k => l.var < k.var) ∧
        ∀ lits ∈ (after calls).formula.clauses, Proper lits → ∃ l ∈ lits, l ∈ m :=
  ⟨isSome_model_after calls, modelFits_after calls⟩

end Solver

end Clausal
