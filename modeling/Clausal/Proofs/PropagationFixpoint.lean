import Clausal.Proofs.ForcedLiterals

/-!
# The end of propagation

Propagation ends where no rule applies (`fixpoint_of_step`).  The outcome says whether some clause
is false or every clause is true under the final assignment, and else names the first open literal
of the first clause that is not satisfied (`first_open`).  Both rules keep satisfiability, and the
unit rule keeps every model (`Forces.extends_final`).
-/

set_option autoImplicit false

namespace Clausal

/-- The first literal with an open variable in the first clause without a true literal. -/
def FirstOpen (clauses : List (List Lit)) (assignment : Assignment) (l : Lit) : Prop :=
  ∃ clause, clauses.find? (fun clause => !clause.any assignment.isTrue) = some clause ∧
    clause.find? (fun m => (assignment.value m.var).isNone) = some l

/-- Clauses that neither rule applies to: none has one literal, and with pure literals allowed
each literal occurs beside its negation. -/
structure Irreducible (pureLiterals : Bool) (residual : List (List Lit)) : Prop where
  noUnit : ∀ lits ∈ residual, lits.length ≠ 1
  noPure : pureLiterals = true → ∀ m ∈ residual.flatten, -m ∈ residual.flatten

structure Fixpoint (clauses : List (List Lit)) (pureLiterals : Bool) (final : Assignment)
    (outcome : Propagation) : Prop where
  conflict_iff : outcome = .conflict ↔ ∃ clause ∈ clauses, ∀ l ∈ clause, final.isFalse l = true
  satisfied_iff : outcome = .satisfied ↔
    ∀ clause ∈ clauses, ∃ l ∈ clause, final.isTrue l = true
  undecided : ∀ l, outcome = .undecided l → FirstOpen clauses final l ∧
    ∃ residual, reduce? final clauses = some residual ∧ Irreducible pureLiterals residual

section Residual

variable {assignment : Assignment} {clauses residual : List (List Lit)}

theorem openLits_eq_of_noneTrue {clause : List Lit}
    (noneTrue : clause.any assignment.isTrue = false) :
    assignment.openLits clause = clause.filter fun m => (assignment.value m.var).isNone := by
  refine List.filter_congr ?_
  intro m inClause
  have notTrue : assignment.isTrue m = false := by
    simpa using List.any_eq_false.mp noneTrue m inClause
  cases isFalse : assignment.isFalse m with
  | true =>
      rw [Assignment.isFalse_iff.mp isFalse]
      rfl
  | false =>
      rw [Assignment.value_eq_none_of_open notTrue isFalse]
      rfl

theorem first_open (reduced : reduce? assignment clauses = some residual) {l : Lit}
    (isFirst : residual.flatten.head? = some l) : FirstOpen clauses assignment l := by
  cases residual with
  | nil => cases isFirst
  | cons lits others =>
      obtain ⟨clause, _, kept, opened, _⟩ :=
        List.map_eq_cons_iff.mp (reduce?_eq_some_iff.mp reduced).1.symm
      have found : clauses.find? (fun clause => !clause.any assignment.isTrue) = some clause := by
        rw [← List.head?_filter, kept, List.head?_cons]
      have noneTrue : clause.any assignment.isTrue = false := by
        simpa using List.find?_some found
      refine ⟨clause, found, ?_⟩
      rw [← List.head?_filter, ← openLits_eq_of_noneTrue noneTrue, opened]
      cases lits with
      | nil => exact absurd rfl (ne_nil_of_mem_residual reduced (by simp))
      | cons first rest => exact isFirst

theorem length_ne_one_of_unitLit? (noUnit : residual.findSome? unitLit? = none)
    {lits : List Lit} (member : lits ∈ residual) : lits.length ≠ 1 := by
  intro one
  obtain ⟨l, rfl⟩ := List.length_eq_one_iff.mp one
  have notUnit := List.findSome?_eq_none_iff.mp noUnit [l] member
  cases notUnit

end Residual

/-! ## The last step -/

theorem fixpoint_of_step {clauses : List (List Lit)} {pureLiterals : Bool} {final : Assignment}
    {outcome : Propagation} (ends : nextStep clauses pureLiterals final = outcome.step) :
    Fixpoint clauses pureLiterals final outcome := by
  have describes := nextStep_describes clauses pureLiterals final
  rw [ends] at describes
  -- The residual of the last step belongs to one outcome only.
  refine ⟨?_, ?_, ?_⟩
  · rw [← reduce?_eq_none_iff]
    cases outcome with
    | conflict => exact iff_of_true rfl describes
    | satisfied => exact iff_of_false Propagation.noConfusion (by rw [describes]; simp)
    | undecided l =>
        obtain ⟨residual, reduced, _⟩ := describes
        exact iff_of_false Propagation.noConfusion (by rw [reduced]; simp)
  · rw [← reduce?_eq_nil_iff]
    cases outcome with
    | conflict => exact iff_of_false Propagation.noConfusion (by rw [describes]; simp)
    | satisfied => exact iff_of_true rfl describes
    | undecided l =>
        obtain ⟨residual, reduced, isFirst, _⟩ := describes
        refine iff_of_false Propagation.noConfusion ?_
        intro nothing
        rw [nothing] at reduced
        cases reduced
        cases isFirst
  · rintro l rfl
    obtain ⟨residual, reduced, isFirst, noUnit, noPure⟩ := describes
    refine ⟨first_open reduced isFirst, residual, reduced, ?_, ?_⟩
    · intro lits member
      exact length_ne_one_of_unitLit? noUnit member
    · intro allowed m member
      exact negate_mem_of_pureLit?_eq_none (noPure allowed) member

/-! ## Models -/

theorem extends_trans {valuation : Valuation} {start final : Assignment}
    (completes : Valuation.Extends valuation final) (keeps : final.Extends start) :
    Valuation.Extends valuation start :=
  fun v polarity bound => completes v polarity (keeps v polarity bound)

namespace Forces

variable {clauses : List (List Lit)} {pureLiterals : Bool} {start final : Assignment}
  {forced : List (Rule × Lit)}

theorem extendable_iff (forces : Forces clauses pureLiterals start forced final) :
    Extendable clauses start ↔ Extendable clauses final := by
  constructor
  · exact forces.extendable
  · rintro ⟨valuation, completes, models⟩
    exact ⟨valuation, extends_trans completes forces.extends_start, models⟩

theorem extends_final (forces : Forces clauses false start forced final) {valuation : Valuation}
    (completes : Valuation.Extends valuation start) (models : Valuation.Models valuation clauses) :
    Valuation.Extends valuation final := by
  induction forces with
  | done => exact completes
  | @force assignment next final rule l forced step assigned rest inductionHypothesis =>
      refine inductionHypothesis ((extends_assign_iff assigned).mpr ⟨completes, ?_⟩)
      obtain ⟨_, residual, reduced, isUnit⟩ := unit_of_force step
      exact holds_of_unit reduced isUnit completes models

end Forces

/-- Propagation ends at a fixpoint for every clause list and every start.  It keeps the bindings
of the start, binds and counts open variables of the clauses, and keeps satisfiability; without
pure literals it keeps every model. -/
theorem propagate_fixpoint (clauses : List (List Lit)) (pureLiterals : Bool) (start : Assignment)
    (progress : Progress) :
    ∃ outcome final,
      (propagate clauses pureLiterals start progress).result = .ok (outcome, final) ∧
      Fixpoint clauses pureLiterals final outcome ∧
      final.Extends start ∧
      (∃ bound : List Var, bound.Nodup ∧
        (∀ v, v ∈ bound ↔ (final.value v).isSome ∧ start.value v = none) ∧
        (∀ v ∈ bound, ∃ l ∈ clauses.flatten, l.var = v) ∧
        (propagate clauses pureLiterals start progress).progress.stats.propagations +
            (propagate clauses pureLiterals start progress).progress.stats.pureLiterals =
          progress.stats.propagations + progress.stats.pureLiterals + bound.length) ∧
      (Extendable clauses start ↔ Extendable clauses final) ∧
      (pureLiterals = false → ∀ valuation : Valuation, Valuation.Extends valuation start →
        Valuation.Models valuation clauses → Valuation.Extends valuation final) := by
  obtain ⟨outcome, final, forced, forces, ends, run⟩ :=
    propagate_forces clauses pureLiterals start progress
  rw [run]
  refine ⟨outcome, final, rfl, fixpoint_of_step ends, forces.extends_start,
    ⟨forced.map fun f => f.2.var, forces.nodup_vars, fun v => forces.mem_vars_iff, ?_, ?_⟩,
    forces.extendable_iff, ?_⟩
  · intro v isForced
    exact forces.occurs_of_mem_vars isForced
  · have counted := countP_rules forced
    simp only [Run.done, stats_forceAll, List.length_map]
    omega
  · rintro rfl valuation completes models
    exact forces.extends_final completes models

end Clausal
