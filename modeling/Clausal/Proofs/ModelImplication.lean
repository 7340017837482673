import Clausal.Proofs.Verdict

/-!
# What an accepted model implies

An assignment is accepted for a formula exactly when all its completions satisfy all clauses.  A
clause that is no tautology and has no true literal is false under some completion: variables that
the assignment leaves open can be set against the literals of the clause
(`Assignment.settles_iff_implied`).
-/

set_option autoImplicit false

namespace Clausal

namespace Assignment

/-- The completion of an assignment that sets every open variable against a clause. -/
def against (assignment : Assignment) (lits : List Lit) : Valuation :=
  fun v => (assignment.value v).getD (decide (v.negative ∈ lits))

section Against

variable {assignment : Assignment} {lits : List Lit}

theorem extends_against (assignment : Assignment) (lits : List Lit) :
    Valuation.Extends (assignment.against lits) assignment := by
  intro v polarity bound
  rw [against, bound, Option.getD_some]

theorem not_holds_against {l : Lit} (proper : Proper lits) (member : l ∈ lits)
    (notTrue : ¬assignment.isTrue l = true) : ¬l.Holds (assignment.against lits) := by
  intro holds
  rw [Lit.Holds, against] at holds
  cases bound : assignment.value l.var with
  | some polarity =>
      rw [bound, Option.getD_some] at holds
      rw [holds] at bound
      exact notTrue (isTrue_iff_value.mpr bound)
  | none =>
      rw [bound, Option.getD_none] at holds
      cases positive : l.isPositive with
      | true =>
          have isPositive : l = l.var.positive := by
            rw [Var.positive, ← positive, Lit.lit_var_isPositive]
          rw [positive, decide_eq_true_eq, Var.negative_eq, ← isPositive] at holds
          exact proper l member holds
      | false =>
          have isNegative : l = l.var.negative := by
            rw [Var.negative, ← positive, Lit.lit_var_isPositive]
          rw [positive, decide_eq_false_iff_not, ← isNegative] at holds
          exact holds member

/-- A clause is settled exactly when all completions satisfy it. -/
theorem settles_iff_implied : assignment.settles lits = true ↔
    ∀ valuation, Valuation.Extends valuation assignment → Valuation.Satisfies valuation lits := by
  rw [settles_iff]
  constructor
  · intro hasTrue valuation completes
    by_cases proper : Proper lits
    · obtain ⟨l, member, isTrue⟩ := hasTrue proper
      exact ⟨l, member, holds_of_isTrue isTrue completes⟩
    · exact satisfies_of_not_proper proper valuation
  · intro implied proper
    obtain ⟨l, member, holds⟩ := implied _ (extends_against assignment lits)
    by_contra noneTrue
    refine not_holds_against proper member ?_ holds
    intro isTrue
    exact noneTrue ⟨l, member, isTrue⟩

theorem not_settles_iff : assignment.settles lits = false ↔
    ∃ valuation, Valuation.Extends valuation assignment ∧
      ¬Valuation.Satisfies valuation lits := by
  rw [← Bool.not_eq_true, settles_iff_implied]
  simp only [not_forall, exists_prop]

end Against

end Assignment

theorem checkModel_eq_error_iff {formula : Formula} {assignment : Assignment} {lits : List Lit} :
    checkModel formula assignment = .error ⟨lits⟩ ↔
      assignment.settles lits = false ∧ ∃ front back, formula.clauses = front ++ lits :: back ∧
        ∀ other ∈ front, assignment.settles other = true := by
  have first : (formula.clauses.find? fun other => !assignment.settles other) = some lits ↔ _ :=
    List.find?_eq_some_iff_append
  simp only [Bool.not_eq_true', Bool.not_not] at first
  rw [← first, checkModel]
  cases formula.clauses.find? fun other => !assignment.settles other with
  | none => simp
  | some other => simp

/-- An assignment is accepted exactly when each of its completions satisfies the formula.  Otherwise
the first clause is reported, as written, that some completion does not satisfy. -/
theorem checkModel_implication (formula : Formula) (assignment : Assignment) :
    (checkModel formula assignment = .ok () ↔
      ∀ valuation, Valuation.Extends valuation assignment →
        Valuation.Models valuation formula.clauses) ∧
    ∀ lits, checkModel formula assignment = .error ⟨lits⟩ ↔
      (∃ valuation, Valuation.Extends valuation assignment ∧
        ¬Valuation.Satisfies valuation lits) ∧
      ∃ front back, formula.clauses = front ++ lits :: back ∧
        ∀ other ∈ front, ∀ valuation, Valuation.Extends valuation assignment →
          Valuation.Satisfies valuation other := by
  constructor
  · rw [checkModel_eq_ok_iff]
    constructor
    · intro settled valuation completes lits member
      exact Assignment.settles_iff_implied.mp (settled lits member) valuation completes
    · intro implied lits member
      refine Assignment.settles_iff_implied.mpr ?_
      intro valuation completes
      exact implied valuation completes lits member
  · intro lits
    rw [checkModel_eq_error_iff, Assignment.not_settles_iff]
    simp only [Assignment.settles_iff_implied]

end Clausal
