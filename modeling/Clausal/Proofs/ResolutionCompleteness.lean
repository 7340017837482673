import Clausal.Proofs.Resolvent

/-!
# Completeness of resolution

A list of clauses that holds all its resolvents and not the empty clause has a model
(`exists_model_of_closed`).  The model is found variable by variable: as long as no clause is
falsified by the variables decided so far, one of the two values of the next variable falsifies
none either, or else the resolvent of two clauses that the two values falsify was falsified
before.
-/

set_option autoImplicit false

namespace Clausal

/-- Every resolvent of two clauses that is not a tautology is among the clauses. -/
def Closed (clauses : List Clause) : Prop :=
  ∀ a ∈ clauses, ∀ b ∈ clauses, ∀ l ∈ a, -l ∈ b → Proper (joined a b l).lits →
    joined a b l ∈ clauses

/-- Every literal is false by the value of a decided variable. -/
def Falsified (decided : List Var) (valuation : Valuation) (lits : List Lit) : Prop :=
  ∀ l ∈ lits, l.var ∈ decided ∧ ¬l.Holds valuation

section Decision

variable {decided : List Var} {v : Var} {valuation : Valuation} {polarity : Bool} {lits : List Lit}

/-- The other literals of a clause that a decision falsifies were false before. -/
theorem falsified_before
    (falsified : Falsified (v :: decided) (Function.update valuation v polarity) lits) {l : Lit}
    (member : l ∈ lits) (other : l.var ≠ v) : l.var ∈ decided ∧ ¬l.Holds valuation := by
  obtain ⟨isDecided, fails⟩ := falsified l member
  constructor
  · exact (List.mem_cons.mp isDecided).resolve_left other
  · rwa [holds_update_of_ne other] at fails

/-- A clause that only a decision falsifies holds the literal that the decision makes false. -/
theorem lit_mem_of_falsified
    (falsified : Falsified (v :: decided) (Function.update valuation v polarity) lits)
    (notBefore : ¬Falsified decided valuation lits) : v.lit (!polarity) ∈ lits := by
  by_contra absent
  refine notBefore ?_
  intro l member
  refine falsified_before falsified member ?_
  intro sameVar
  have fails := (falsified l member).2
  have isLit := Lit.lit_var_isPositive l
  rw [Lit.Holds, sameVar, Function.update_self] at fails
  rw [sameVar] at isLit
  have flipped : l.isPositive = !polarity := by
    cases polarity <;> cases l.isPositive <;> simp_all
  rw [flipped] at isLit
  exact absent (isLit ▸ member)

end Decision

/-- What no valuation can satisfy contains no literal together with its negation. -/
theorem proper_of_falsified {decided : List Var} {valuation : Valuation} {lits : List Lit}
    (falsified : Falsified decided valuation lits) : Proper lits := by
  intro l member negatedMember
  have fails := (falsified l member).2
  exact (falsified (-l) negatedMember).2 (holds_negate.mpr fails)

/-- The resolvent of two clauses that opposite decisions falsify was falsified before. -/
theorem falsified_joined {decided : List Var} {v : Var} {valuation : Valuation} {a b : Clause}
    (aProper : Proper a.lits) (bProper : Proper b.lits) (inLeft : v.positive ∈ a)
    (inRight : -v.positive ∈ b)
    (aFalsified : Falsified (v :: decided) (Function.update valuation v false) a.lits)
    (bFalsified : Falsified (v :: decided) (Function.update valuation v true) b.lits) :
    Falsified decided valuation (joined a b v.positive).lits := by
  intro l member
  have other : l.var ≠ v := by
    have notPivot := var_ne_of_mem_joined aProper bProper inLeft inRight member
    rwa [Var.var_positive] at notPivot
  rcases mem_joined.mp member with ⟨fromLeft, _⟩ | ⟨fromRight, _⟩
  · exact falsified_before aFalsified fromLeft other
  · exact falsified_before bFalsified fromRight other

theorem exists_unfalsified {clauses : List Clause} (closed : Closed clauses)
    (proper : ∀ c ∈ clauses, Proper c.lits) (noEmpty : Clause.empty ∉ clauses)
    (decided : List Var) :
    ∃ valuation, ∀ c ∈ clauses, ¬Falsified decided valuation c.lits := by
  induction decided with
  | nil =>
      refine ⟨fun _ => false, ?_⟩
      intro c member falsified
      have noLits : c.lits = [] := by
        rw [List.eq_nil_iff_forall_not_mem]
        intro l inClause
        exact absurd (falsified l inClause).1 (by simp)
      exact noEmpty ((Clause.ext_lits noLits : c = Clause.empty) ▸ member)
  | cons v decided inductionHypothesis =>
      obtain ⟨valuation, unfalsified⟩ := inductionHypothesis
      by_contra noValue
      have decisionFails : ∀ polarity, ∃ c ∈ clauses,
          Falsified (v :: decided) (Function.update valuation v polarity) c.lits := by
        intro polarity
        by_contra noneFalsified
        refine noValue ⟨Function.update valuation v polarity, ?_⟩
        intro c member falsified
        exact noneFalsified ⟨c, member, falsified⟩
      obtain ⟨a, aIn, aFalsified⟩ := decisionFails false
      obtain ⟨b, bIn, bFalsified⟩ := decisionFails true
      have inLeft : v.positive ∈ a := lit_mem_of_falsified aFalsified (unfalsified a aIn)
      have inRight : -v.positive ∈ b := by
        rw [Var.positive, Lit.negate_lit]
        exact lit_mem_of_falsified bFalsified (unfalsified b bIn)
      have falsified := falsified_joined (proper a aIn) (proper b bIn) inLeft inRight
        aFalsified bFalsified
      exact unfalsified (joined a b v.positive)
        (closed a aIn b bIn v.positive inLeft inRight (proper_of_falsified falsified)) falsified

/-- Clauses that hold all their resolvents but not the empty clause have a model. -/
theorem exists_model_of_closed {clauses : List Clause} (closed : Closed clauses)
    (proper : ∀ c ∈ clauses, Proper c.lits) (noEmpty : Clause.empty ∉ clauses) :
    ∃ valuation : Valuation, Valuation.Models valuation (clauses.map Clause.lits) := by
  obtain ⟨valuation, unfalsified⟩ :=
    exists_unfalsified closed proper noEmpty (variablesOf clauses)
  refine ⟨valuation, ?_⟩
  simp only [Valuation.Models, List.forall_mem_map]
  intro c member
  by_contra unsatisfied
  refine unfalsified c member ?_
  intro l inClause
  refine ⟨mem_variablesOf.mpr ⟨c, member, l, inClause, rfl⟩, ?_⟩
  intro holds
  exact unsatisfied ⟨l, inClause, holds⟩

end Clausal
