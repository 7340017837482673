import Clausal.Assignment

/-!
# Meaning of clauses

A valuation gives every variable a value.  It satisfies a list of clauses, each given as a list
of literals, when every clause has a literal that holds.  The main statements say that a clause
means the same in every order and with every repetition (`satisfies_ofList`), that tautologies
are satisfied by every valuation (`satisfies_of_isTautology`), and that a literal that a partial
assignment makes true holds in all its completions (`holds_of_isTrue`).
-/

set_option autoImplicit false

namespace Clausal

abbrev Valuation := Var → Bool

def Lit.Holds (l : Lit) (valuation : Valuation) : Prop := valuation l.var = l.isPositive

instance (l : Lit) (valuation : Valuation) : Decidable (l.Holds valuation) :=
  inferInstanceAs (Decidable (valuation l.var = l.isPositive))

namespace Valuation

def Satisfies (valuation : Valuation) (lits : List Lit) : Prop :=
  ∃ l ∈ lits, l.Holds valuation

instance (valuation : Valuation) (lits : List Lit) : Decidable (Satisfies valuation lits) :=
  inferInstanceAs (Decidable (∃ l ∈ lits, l.Holds valuation))

def Models (valuation : Valuation) (clauses : List (List Lit)) : Prop :=
  ∀ lits ∈ clauses, Satisfies valuation lits

def Extends (valuation : Valuation) (assignment : Assignment) : Prop :=
  ∀ v polarity, assignment.value v = some polarity → valuation v = polarity

end Valuation

def Satisfiable (clauses : List (List Lit)) : Prop :=
  ∃ valuation : Valuation, Valuation.Models valuation clauses

/-- Exactly one literal of a variable holds. -/
theorem holds_negate {l : Lit} {valuation : Valuation} :
    (-l).Holds valuation ↔ ¬l.Holds valuation := by
  rw [Lit.Holds, Lit.Holds, Lit.var_negate, Lit.isPositive_negate]
  cases valuation l.var <;> cases l.isPositive <;> simp

theorem satisfies_ofList {valuation : Valuation} {lits : List Lit} :
    Valuation.Satisfies valuation (Clause.ofList lits).lits ↔
      Valuation.Satisfies valuation lits := by
  constructor
  · rintro ⟨l, member, holds⟩
    exact ⟨l, Clause.mem_ofList.mp member, holds⟩
  · rintro ⟨l, member, holds⟩
    exact ⟨l, Clause.mem_ofList.mpr member, holds⟩

theorem satisfies_of_isTautology {clause : Clause} (tautology : clause.isTautology = true)
    (valuation : Valuation) : Valuation.Satisfies valuation clause.lits := by
  obtain ⟨l, member, negatedMember⟩ := Clause.isTautology_iff.mp tautology
  by_cases holds : l.Holds valuation
  · exact ⟨l, member, holds⟩
  · exact ⟨-l, negatedMember, holds_negate.mpr holds⟩

/-- A literal that an assignment makes true holds in all completions. -/
theorem holds_of_isTrue {assignment : Assignment} {l : Lit} {valuation : Valuation}
    (isTrue : assignment.isTrue l = true) (completes : Valuation.Extends valuation assignment) :
    l.Holds valuation := by
  refine completes l.var l.isPositive (Assignment.value_eq_some_iff.mpr ?_)
  rw [Lit.lit_var_isPositive]
  exact Assignment.isTrue_iff.mp isTrue

end Clausal
