import Mathlib.Logic.Function.Basic
import Clausal.Semantics
import Clausal.Simplify

/-!
# Satisfaction

What a valuation makes of a clause depends on the variables of the clause only, and a clause
that holds both literals of a variable can be left out.  Dropping such clauses is all that
simplification does, so what it leaves has the same models (`models_kept_iff`).
-/

set_option autoImplicit false

namespace Clausal

def Proper (lits : List Lit) : Prop := ∀ l ∈ lits, -l ∉ lits

instance (lits : List Lit) : Decidable (Proper lits) :=
  inferInstanceAs (Decidable (∀ l ∈ lits, -l ∉ lits))

/-- A clause that is not a tautology mentions the variable. -/
def Constrained (clauses : List (List Lit)) (v : Var) : Prop :=
  ∃ lits ∈ clauses, Proper lits ∧ ∃ l ∈ lits, l.var = v

/-- The valuation with the values of an assignment, false where the assignment has none. -/
def Assignment.completion (assignment : Assignment) : Valuation :=
  fun v => (assignment.value v).getD false

/-- Every clause that is not a tautology has a literal that the assignment makes true. -/
def Assignment.Settles (assignment : Assignment) (clauses : List (List Lit)) : Prop :=
  ∀ lits ∈ clauses, Proper lits → ∃ l ∈ lits, assignment.isTrue l = true

/-! ## Valuations that agree -/

theorem holds_congr {l : Lit} {valuation other : Valuation}
    (agree : valuation l.var = other l.var) : l.Holds valuation ↔ l.Holds other := by
  rw [Lit.Holds, Lit.Holds, agree]

theorem satisfies_congr {lits : List Lit} {valuation other : Valuation}
    (agree : ∀ l ∈ lits, valuation l.var = other l.var) :
    Valuation.Satisfies valuation lits ↔ Valuation.Satisfies other lits := by
  constructor
  · rintro ⟨l, member, holds⟩
    exact ⟨l, member, (holds_congr (agree l member)).mp holds⟩
  · rintro ⟨l, member, holds⟩
    exact ⟨l, member, (holds_congr (agree l member)).mpr holds⟩

theorem holds_update_self {l : Lit} (valuation : Valuation) :
    l.Holds (Function.update valuation l.var l.isPositive) := by
  rw [Lit.Holds, Function.update_self]

theorem holds_update_of_ne {l : Lit} {v : Var} (other : l.var ≠ v) (valuation : Valuation)
    (polarity : Bool) : l.Holds (Function.update valuation v polarity) ↔ l.Holds valuation :=
  holds_congr (Function.update_of_ne other polarity valuation)

/-! ## Tautologies -/

theorem Clause.isTautology_eq_false_iff {clause : Clause} :
    clause.isTautology = false ↔ Proper clause.lits := by
  rw [← Bool.not_eq_true, Clause.isTautology_iff]
  constructor
  · intro none l member negatedMember
    exact none ⟨l, member, negatedMember⟩
  · rintro proper ⟨l, member, negatedMember⟩
    exact proper l member negatedMember

theorem isTautologyWritten_eq_false_iff {lits : List Lit} :
    isTautologyWritten lits = false ↔ Proper lits := by
  rw [isTautologyWritten, Clause.isTautology_eq_false_iff]
  simp only [Proper, Clause.mem_lits, Clause.mem_ofList]

theorem satisfies_of_not_proper {lits : List Lit} (tautology : ¬Proper lits)
    (valuation : Valuation) : Valuation.Satisfies valuation lits := by
  have isTautology : (Clause.ofList lits).isTautology = true := by
    by_contra notTautology
    exact tautology (isTautologyWritten_eq_false_iff.mp ((Bool.not_eq_true _).mp notTautology))
  exact satisfies_ofList.mp (satisfies_of_isTautology isTautology valuation)

theorem models_iff_proper {valuation : Valuation} {clauses : List (List Lit)} :
    Valuation.Models valuation clauses ↔
      ∀ lits ∈ clauses, Proper lits → Valuation.Satisfies valuation lits := by
  constructor
  · intro models lits member _
    exact models lits member
  · intro satisfied lits member
    by_cases proper : Proper lits
    · exact satisfied lits member proper
    · exact satisfies_of_not_proper proper valuation

theorem not_satisfiable_of_nil_mem {clauses : List (List Lit)} (member : [] ∈ clauses) :
    ¬Satisfiable clauses := by
  rintro ⟨valuation, models⟩
  obtain ⟨l, inEmpty, _⟩ := models [] member
  cases inEmpty

/-! ## Partial assignments -/

theorem Assignment.mem_trueLits_iff_value {assignment : Assignment} {l : Lit} :
    l ∈ assignment.trueLits ↔ assignment.value l.var = some l.isPositive := by
  rw [value_eq_some_iff, Lit.lit_var_isPositive]

theorem Assignment.isTrue_iff_value {assignment : Assignment} {l : Lit} :
    assignment.isTrue l = true ↔ assignment.value l.var = some l.isPositive :=
  isTrue_iff.trans mem_trueLits_iff_value

theorem extends_completion (assignment : Assignment) :
    Valuation.Extends assignment.completion assignment := by
  intro v polarity bound
  rw [Assignment.completion, bound, Option.getD_some]

theorem completion_of_isSome {assignment : Assignment} {v : Var}
    (bound : (assignment.value v).isSome) :
    assignment.value v = some (assignment.completion v) := by
  obtain ⟨polarity, hasValue⟩ := Option.isSome_iff_exists.mp bound
  rw [Assignment.completion, hasValue, Option.getD_some]

theorem trueLits_eq_of_value_eq {assignment other : Assignment}
    (sameValues : ∀ v, other.value v = assignment.value v) :
    other.trueLits = assignment.trueLits := by
  refine Ascending.eq_of_mem_iff other.ascending assignment.ascending ?_
  intro l
  rw [Assignment.mem_trueLits_iff_value, Assignment.mem_trueLits_iff_value, sameValues]

theorem extends_assign_iff {assignment next : Assignment} {l : Lit}
    (assigned : assignment.assign l = .ok next) {valuation : Valuation} :
    Valuation.Extends valuation next ↔
      Valuation.Extends valuation assignment ∧ l.Holds valuation := by
  have value := Assignment.value_assign assigned
  have unbound := Assignment.unbound_of_assign assigned
  constructor
  · intro completes
    constructor
    · intro v polarity bound
      refine completes v polarity ?_
      rw [value, if_neg ?_, bound]
      rintro rfl
      rw [unbound] at bound
      cases bound
    · exact completes l.var l.isPositive (by rw [value, if_pos rfl])
  · rintro ⟨completes, holds⟩ v polarity bound
    rw [value] at bound
    split at bound
    · next same =>
        cases bound
        rw [same]
        exact holds
    · exact completes v polarity bound

theorem holds_completion_iff {assignment : Assignment} {l : Lit}
    (bound : (assignment.value l.var).isSome) :
    l.Holds assignment.completion ↔ assignment.isTrue l = true := by
  constructor
  · intro holds
    rw [Assignment.isTrue_iff_value, completion_of_isSome bound,
      show assignment.completion l.var = l.isPositive from holds]
  · intro isTrue
    exact holds_of_isTrue isTrue (extends_completion assignment)

theorem models_of_settles {assignment : Assignment} {clauses : List (List Lit)}
    (settles : assignment.Settles clauses) {valuation : Valuation}
    (completes : Valuation.Extends valuation assignment) :
    Valuation.Models valuation clauses := by
  refine models_iff_proper.mpr ?_
  intro lits member proper
  obtain ⟨l, inClause, isTrue⟩ := settles lits member proper
  exact ⟨l, inClause, holds_of_isTrue isTrue completes⟩

/-! ## Clauses with the same literals -/

section SameLiterals

variable {rewrite : List Lit → List Lit} {clauses : List (List Lit)}

theorem models_map_iff (sameLits : ∀ lits l, l ∈ rewrite lits ↔ l ∈ lits)
    {valuation : Valuation} :
    Valuation.Models valuation (clauses.map rewrite) ↔ Valuation.Models valuation clauses := by
  simp only [Valuation.Models, Valuation.Satisfies, List.forall_mem_map, sameLits]

theorem satisfiable_map_iff (sameLits : ∀ lits l, l ∈ rewrite lits ↔ l ∈ lits) :
    Satisfiable (clauses.map rewrite) ↔ Satisfiable clauses := by
  simp only [Satisfiable, models_map_iff sameLits]

theorem settles_map_iff (sameLits : ∀ lits l, l ∈ rewrite lits ↔ l ∈ lits)
    {assignment : Assignment} :
    assignment.Settles (clauses.map rewrite) ↔ assignment.Settles clauses := by
  simp only [Assignment.Settles, Proper, List.forall_mem_map, sameLits]

theorem constrained_map_iff (sameLits : ∀ lits l, l ∈ rewrite lits ↔ l ∈ lits) {v : Var} :
    Constrained (clauses.map rewrite) v ↔ Constrained clauses v := by
  simp only [Constrained, Proper, List.mem_map, exists_exists_and_eq_and, sameLits]

end SameLiterals

/-! ## Constrained variables -/

def constrainedVars (clauses : List Clause) : List Var :=
  variablesOf (clauses.filter fun c => !c.isTautology)

section Constrained

variable {clauses kept : List Clause}

theorem constrained_iff_of_proper (proper : ∀ c ∈ kept, Proper c.lits) (v : Var) :
    Constrained (kept.map Clause.lits) v ↔ v ∈ variablesOf kept := by
  rw [mem_variablesOf]
  constructor
  · rintro ⟨lits, member, _, l, inClause, sameVar⟩
    obtain ⟨c, cIn, same⟩ := List.mem_map.mp member
    subst same
    exact ⟨c, cIn, l, inClause, sameVar⟩
  · rintro ⟨c, cIn, l, inClause, sameVar⟩
    exact ⟨c.lits, List.mem_map_of_mem cIn, proper c cIn, l, inClause, sameVar⟩

theorem constrained_kept_iff (keptIff : ∀ c, c ∈ kept ↔ c ∈ clauses ∧ Proper c.lits) (v : Var) :
    Constrained (clauses.map Clause.lits) v ↔ Constrained (kept.map Clause.lits) v := by
  constructor
  · rintro ⟨lits, member, proper, occurs⟩
    obtain ⟨c, cIn, same⟩ := List.mem_map.mp member
    subst same
    exact ⟨c.lits, List.mem_map_of_mem ((keptIff c).mpr ⟨cIn, proper⟩), proper, occurs⟩
  · rintro ⟨lits, member, proper, occurs⟩
    obtain ⟨c, cIn, same⟩ := List.mem_map.mp member
    subst same
    exact ⟨c.lits, List.mem_map_of_mem ((keptIff c).mp cIn).1, proper, occurs⟩

theorem mem_constrainedVars {clauses : List Clause} {v : Var} :
    v ∈ constrainedVars clauses ↔ Constrained (clauses.map Clause.lits) v := by
  have keptIff : ∀ c, c ∈ clauses.filter (fun c => !c.isTautology) ↔
      c ∈ clauses ∧ Proper c.lits := by
    intro c
    rw [List.mem_filter, Bool.not_eq_true', Clause.isTautology_eq_false_iff]
  rw [constrained_kept_iff keptIff, constrainedVars,
    constrained_iff_of_proper fun c member => ((keptIff c).mp member).2]

end Constrained

/-! ## Simplification -/

section Simplification

variable {α : Type} {isTautology isEmpty : α → Bool} {litsOf : α → List Lit}
  {clauses kept : List α}

theorem classify_eq_unsat_iff : Simplified.classify isTautology isEmpty clauses = .unsat ↔
    ∃ c ∈ clauses, isTautology c = false ∧ isEmpty c = true := by
  have anyIff : (clauses.filter fun c => !isTautology c).any isEmpty = true ↔
      ∃ c ∈ clauses, isTautology c = false ∧ isEmpty c = true := by
    simp only [List.any_eq_true, List.mem_filter, Bool.not_eq_true', and_assoc]
  rw [← anyIff, Simplified.classify]
  split
  · next anyEmpty => exact iff_of_true rfl anyEmpty
  · next noneEmpty =>
      refine iff_of_false ?_ noneEmpty
      split <;> simp

theorem classify_eq_remaining_iff :
    Simplified.classify isTautology isEmpty clauses = .remaining kept ↔
      kept = (clauses.filter fun c => !isTautology c) ∧ kept ≠ [] ∧
        ∀ c ∈ kept, isEmpty c = false := by
  rw [Simplified.classify]
  split
  · next anyEmpty =>
      refine iff_of_false (by simp) ?_
      intro ⟨isKept, _, noneEmpty⟩
      obtain ⟨c, member, empty⟩ := List.any_eq_true.mp anyEmpty
      rw [noneEmpty c (isKept ▸ member)] at empty
      cases empty
  · next noneEmpty =>
      split
      · next nothingKept =>
          refine iff_of_false (by simp) ?_
          intro ⟨isKept, nonempty, _⟩
          exact nonempty (isKept.trans (List.isEmpty_iff.mp nothingKept))
      · next somethingKept =>
          rw [Simplified.remaining.injEq]
          constructor
          · intro isKept
            subst isKept
            refine ⟨rfl, fun nothing => somethingKept (List.isEmpty_iff.mpr nothing), ?_⟩
            intro c member
            simpa using List.any_eq_false.mp (Bool.eq_false_iff.mpr noneEmpty) c member
          · intro ⟨isKept, _⟩
            exact isKept.symm

theorem classify_eq_sat_iff : Simplified.classify isTautology isEmpty clauses = .sat ↔
    ∀ c ∈ clauses, isTautology c = true := by
  have nothingIff : (clauses.filter fun c => !isTautology c) = [] ↔
      ∀ c ∈ clauses, isTautology c = true := by
    simp only [List.filter_eq_nil_iff, Bool.not_eq_true', Bool.not_eq_false]
  rw [← nothingIff, Simplified.classify]
  split
  · next anyEmpty =>
      refine iff_of_false (by simp) ?_
      intro nothing
      rw [nothing] at anyEmpty
      cases anyEmpty
  · split
    · next nothingKept => exact iff_of_true rfl (List.isEmpty_iff.mp nothingKept)
    · next somethingKept =>
        refine iff_of_false (by simp) ?_
        exact fun nothing => somethingKept (List.isEmpty_iff.mpr nothing)

theorem not_satisfiable_of_unsat (emptyIff : ∀ c, isEmpty c = true ↔ litsOf c = [])
    (simplified : Simplified.classify isTautology isEmpty clauses = .unsat) :
    ¬Satisfiable (clauses.map litsOf) := by
  obtain ⟨c, inClauses, _, empty⟩ := classify_eq_unsat_iff.mp simplified
  have member : litsOf c ∈ clauses.map litsOf := List.mem_map_of_mem inClauses
  rw [(emptyIff c).mp empty] at member
  exact not_satisfiable_of_nil_mem member

theorem not_proper_of_sat (properIff : ∀ c, isTautology c = false ↔ Proper (litsOf c))
    (simplified : Simplified.classify isTautology isEmpty clauses = .sat) {c : α}
    (member : c ∈ clauses) : ¬Proper (litsOf c) := by
  intro proper
  have isTautology := classify_eq_sat_iff.mp simplified c member
  rw [(properIff c).mpr proper] at isTautology
  cases isTautology

theorem mem_kept_iff (properIff : ∀ c, isTautology c = false ↔ Proper (litsOf c))
    (simplified : Simplified.classify isTautology isEmpty clauses = .remaining kept) (c : α) :
    c ∈ kept ↔ c ∈ clauses ∧ Proper (litsOf c) := by
  rw [(classify_eq_remaining_iff.mp simplified).1, List.mem_filter, ← properIff c,
    Bool.not_eq_true']

theorem ne_nil_of_kept (emptyIff : ∀ c, isEmpty c = true ↔ litsOf c = [])
    (simplified : Simplified.classify isTautology isEmpty clauses = .remaining kept) {c : α}
    (member : c ∈ kept) : litsOf c ≠ [] := by
  intro empty
  have notEmpty := (classify_eq_remaining_iff.mp simplified).2.2 c member
  rw [(emptyIff c).mpr empty] at notEmpty
  cases notEmpty

theorem kept_ne_nil
    (simplified : Simplified.classify isTautology isEmpty clauses = .remaining kept) :
    kept ≠ [] :=
  (classify_eq_remaining_iff.mp simplified).2.1

theorem models_kept_iff (properIff : ∀ c, isTautology c = false ↔ Proper (litsOf c))
    (simplified : Simplified.classify isTautology isEmpty clauses = .remaining kept)
    {valuation : Valuation} :
    Valuation.Models valuation (kept.map litsOf) ↔
      Valuation.Models valuation (clauses.map litsOf) := by
  have keptIff := mem_kept_iff properIff simplified
  rw [@models_iff_proper valuation (clauses.map litsOf)]
  simp only [Valuation.Models, List.forall_mem_map]
  constructor
  · intro satisfied c member proper
    exact satisfied c ((keptIff c).mpr ⟨member, proper⟩)
  · intro satisfied c member
    obtain ⟨inClauses, proper⟩ := (keptIff c).mp member
    exact satisfied c inClauses proper

end Simplification

end Clausal
