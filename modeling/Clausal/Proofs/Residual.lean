import Clausal.Proofs.PureLiterals
import Clausal.Proofs.Satisfaction

/-!
# Residual clauses

The residual clauses hold what an assignment leaves open of the clauses it does not satisfy
(`mem_residual_iff`), and they have the same completions of the assignment as models
(`models_residual_iff`).  A literal that a residual clause forces, and one whose variable occurs
with one polarity only, can be made true without losing every model (`extendable_of_unit`,
`extendable_of_pure`).
-/

set_option autoImplicit false

namespace Clausal

def Assignment.openLits (assignment : Assignment) (lits : List Lit) : List Lit :=
  lits.filter fun l => !assignment.isFalse l

def Extendable (clauses : List (List Lit)) (assignment : Assignment) : Prop :=
  ∃ valuation : Valuation,
    Valuation.Extends valuation assignment ∧ Valuation.Models valuation clauses

theorem isFalse_of_holds {assignment : Assignment} {valuation : Valuation} {l : Lit}
    (completes : Valuation.Extends valuation assignment) (holds : l.Holds valuation) :
    assignment.isFalse l = false := by
  rw [← Bool.not_eq_true, Assignment.isFalse_iff]
  intro bound
  have flipped := completes l.var (!l.isPositive) bound
  rw [show valuation l.var = l.isPositive from holds] at flipped
  cases polarity : l.isPositive <;> rw [polarity] at flipped <;> cases flipped

theorem isTrue_eq_false {assignment : Assignment} {l : Lit}
    (isFalse : assignment.isFalse l = true) : assignment.isTrue l = false := by
  rw [Assignment.isFalse, beq_iff_eq] at isFalse
  rw [Assignment.isTrue, isFalse]
  rfl

theorem Assignment.openLits_eq_nil_iff {assignment : Assignment} {clause : List Lit} :
    assignment.openLits clause = [] ↔ ∀ l ∈ clause, assignment.isFalse l = true := by
  rw [openLits, List.filter_eq_nil_iff]
  simp only [Bool.not_eq_true', Bool.not_eq_false]

section Residual

variable {assignment next : Assignment} {clauses residual : List (List Lit)}

theorem reduce?_eq_some_iff : reduce? assignment clauses = some residual ↔
    residual = (clauses.filter fun clause => !clause.any assignment.isTrue).map
      assignment.openLits ∧ [] ∉ residual := by
  induction clauses generalizing residual with
  | nil =>
      rw [reduce?, Option.some.injEq, List.filter_nil, List.map_nil]
      constructor
      · rintro rfl
        exact ⟨rfl, List.not_mem_nil⟩
      · rintro ⟨rfl, _⟩
        rfl
  | cons clause rest inductionHypothesis =>
      by_cases anyTrue : clause.any assignment.isTrue = true
      · rw [reduce?, if_pos anyTrue, inductionHypothesis,
          List.filter_cons_of_neg (by simp [anyTrue])]
      · rw [List.filter_cons_of_pos (by simpa using anyTrue), List.map_cons, reduce?,
          if_neg anyTrue, ← Assignment.openLits]
        cases opened : assignment.openLits clause with
        | nil =>
            constructor
            · intro none
              cases none
            · rintro ⟨rfl, noEmpty⟩
              exact absurd List.mem_cons_self noEmpty
        | cons l lits =>
            simp only [Option.map_eq_some_iff, inductionHypothesis]
            constructor
            · rintro ⟨others, ⟨rfl, noEmpty⟩, rfl⟩
              exact ⟨rfl, by simpa using noEmpty⟩
            · rintro ⟨rfl, noEmpty⟩
              exact ⟨_, ⟨rfl, fun member => noEmpty (List.mem_cons_of_mem _ member)⟩, rfl⟩

theorem mem_residual_iff (reduced : reduce? assignment clauses = some residual) {lits : List Lit} :
    lits ∈ residual ↔ ∃ clause ∈ clauses, clause.any assignment.isTrue = false ∧
      lits = assignment.openLits clause := by
  rw [(reduce?_eq_some_iff.mp reduced).1, List.mem_map]
  simp only [List.mem_filter, Bool.not_eq_true', and_assoc, @eq_comm _ lits]

theorem ne_nil_of_mem_residual (reduced : reduce? assignment clauses = some residual)
    {lits : List Lit} (member : lits ∈ residual) : lits ≠ [] := by
  rintro rfl
  exact (reduce?_eq_some_iff.mp reduced).2 member

theorem reduce?_eq_nil_iff : reduce? assignment clauses = some [] ↔
    ∀ clause ∈ clauses, ∃ l ∈ clause, assignment.isTrue l = true := by
  rw [reduce?_eq_some_iff, and_iff_left List.not_mem_nil, eq_comm, List.map_eq_nil_iff,
    List.filter_eq_nil_iff]
  simp only [Bool.not_eq_true', Bool.not_eq_false, List.any_eq_true]

theorem reduce?_eq_none_iff : reduce? assignment clauses = none ↔
    ∃ clause ∈ clauses, ∀ l ∈ clause, assignment.isFalse l = true := by
  constructor
  · intro reduced
    by_contra noneFalse
    have kept : reduce? assignment clauses = some
        ((clauses.filter fun clause => !clause.any assignment.isTrue).map assignment.openLits) := by
      refine reduce?_eq_some_iff.mpr ⟨rfl, ?_⟩
      intro empty
      obtain ⟨clause, member, nothingOpen⟩ := List.mem_map.mp empty
      exact noneFalse ⟨clause, (List.mem_filter.mp member).1,
        Assignment.openLits_eq_nil_iff.mp nothingOpen⟩
    rw [reduced] at kept
    cases kept
  · rintro ⟨clause, member, allFalse⟩
    cases reduced : reduce? assignment clauses with
    | none => rfl
    | some residual =>
        have noneTrue : clause.any assignment.isTrue = false := by
          refine List.any_eq_false.mpr ?_
          intro l inClause
          simp [isTrue_eq_false (allFalse l inClause)]
        have inResidual := (mem_residual_iff reduced).mpr ⟨clause, member, noneTrue, rfl⟩
        exact absurd (Assignment.openLits_eq_nil_iff.mpr allFalse)
          (ne_nil_of_mem_residual reduced inResidual)

theorem models_residual_iff (reduced : reduce? assignment clauses = some residual)
    {valuation : Valuation} (completes : Valuation.Extends valuation assignment) :
    Valuation.Models valuation residual ↔ Valuation.Models valuation clauses := by
  constructor
  · intro models clause member
    by_cases anyTrue : clause.any assignment.isTrue = true
    · obtain ⟨l, inClause, isTrue⟩ := List.any_eq_true.mp anyTrue
      exact ⟨l, inClause, holds_of_isTrue isTrue completes⟩
    · have inResidual : assignment.openLits clause ∈ residual :=
        (mem_residual_iff reduced).mpr ⟨clause, member, by simpa using anyTrue, rfl⟩
      obtain ⟨l, isOpen, holds⟩ := models _ inResidual
      exact ⟨l, (List.mem_filter.mp isOpen).1, holds⟩
  · intro models lits member
    obtain ⟨clause, inClauses, _, isOpen⟩ := (mem_residual_iff reduced).mp member
    obtain ⟨l, inClause, holds⟩ := models clause inClauses
    refine ⟨l, ?_, holds⟩
    rw [isOpen]
    exact List.mem_filter.mpr ⟨inClause, by simp [isFalse_of_holds completes holds]⟩

theorem not_extendable_of_reduce?_eq_none (reduced : reduce? assignment clauses = none) :
    ¬Extendable clauses assignment := by
  rintro ⟨valuation, completes, models⟩
  obtain ⟨clause, member, allFalse⟩ := reduce?_eq_none_iff.mp reduced
  obtain ⟨l, inClause, holds⟩ := models clause member
  have notFalse := isFalse_of_holds completes holds
  rw [allFalse l inClause] at notFalse
  cases notFalse

/-! ## Forced literals -/

theorem holds_of_unit (reduced : reduce? assignment clauses = some residual) {l : Lit}
    (isUnit : [l] ∈ residual) {valuation : Valuation}
    (completes : Valuation.Extends valuation assignment)
    (models : Valuation.Models valuation clauses) : l.Holds valuation := by
  obtain ⟨m, onlyLit, holds⟩ := (models_residual_iff reduced completes).mpr models [l] isUnit
  rwa [List.mem_singleton.mp onlyLit] at holds

theorem extendable_of_unit (reduced : reduce? assignment clauses = some residual) {l : Lit}
    (isUnit : [l] ∈ residual) (assigned : assignment.assign l = .ok next)
    (extendable : Extendable clauses assignment) : Extendable clauses next := by
  obtain ⟨valuation, completes, models⟩ := extendable
  have holds := holds_of_unit reduced isUnit completes models
  exact ⟨valuation, (extends_assign_iff assigned).mpr ⟨completes, holds⟩, models⟩

theorem pure_of_pureLit? {l : Lit} (found : pureLit? residual = some l) :
    -l ∉ residual.flatten := by
  rw [← Lit.lit_var_isPositive l, Lit.negate_lit]
  rw [pureLit?, Option.or_eq_some_iff] at found
  rcases found with positive | ⟨_, negative⟩
  · obtain ⟨isPositive, occursOnly⟩ := occursOnly_of_pureWith? positive
    exact isPositive ▸ occursOnly.2
  · obtain ⟨isNegative, occursOnly⟩ := occursOnly_of_pureWith? negative
    exact isNegative ▸ occursOnly.2

theorem negate_mem_of_pureLit?_eq_none (nonePure : pureLit? residual = none) {m : Lit}
    (member : m ∈ residual.flatten) : -m ∈ residual.flatten := by
  have both := pureLit?_eq_none_iff.mp nonePure m member
  rw [← Lit.lit_var_isPositive m, Lit.negate_lit]
  cases m.isPositive with
  | true => exact both.2
  | false => exact both.1

/-- Making a pure literal true satisfies every clause that mentions its variable. -/
theorem models_update_of_pure {l : Lit} (isPure : -l ∉ residual.flatten) {valuation : Valuation}
    (models : Valuation.Models valuation residual) :
    Valuation.Models (Function.update valuation l.var l.isPositive) residual := by
  intro lits member
  obtain ⟨m, inClause, holds⟩ := models lits member
  refine ⟨m, inClause, ?_⟩
  by_cases sameVar : m.var = l.var
  · rcases Lit.eq_or_eq_negate sameVar with same | negated
    · rw [same]
      exact holds_update_self valuation
    · rw [negated] at inClause
      exact absurd (List.mem_flatten.mpr ⟨lits, member, inClause⟩) isPure
  · exact (holds_update_of_ne sameVar valuation l.isPositive).mpr holds

theorem extends_update {valuation : Valuation} (completes : Valuation.Extends valuation assignment)
    {v : Var} (unbound : assignment.value v = none) (polarity : Bool) :
    Valuation.Extends (Function.update valuation v polarity) assignment := by
  intro w value bound
  have other : w ≠ v := by
    rintro rfl
    rw [unbound] at bound
    cases bound
  rw [Function.update_of_ne other]
  exact completes w value bound

theorem extendable_of_pure (reduced : reduce? assignment clauses = some residual) {l : Lit}
    (isPure : -l ∉ residual.flatten) (assigned : assignment.assign l = .ok next)
    (extendable : Extendable clauses assignment) : Extendable clauses next := by
  obtain ⟨valuation, completes, models⟩ := extendable
  have residualModels := (models_residual_iff reduced completes).mpr models
  have updated := models_update_of_pure isPure residualModels
  have stillCompletes :=
    extends_update completes (Assignment.unbound_of_assign assigned) l.isPositive
  exact ⟨Function.update valuation l.var l.isPositive,
    (extends_assign_iff assigned).mpr ⟨stillCompletes, holds_update_self valuation⟩,
    (models_residual_iff reduced stillCompletes).mp updated⟩

end Residual

end Clausal
