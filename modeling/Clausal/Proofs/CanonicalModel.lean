import Clausal.Proofs.LeastModel

/-!
# The model that elimination builds

Going back through the levels, each pivot is false unless that leaves a clause of its level
unsatisfied.  By projection one of its two values always does (`exists_extendModel`), so no level
faults and every level ends with its least model.  The model of the whole run is the least model
of the clauses, whatever their order and repetitions.
-/

set_option autoImplicit false

namespace Clausal

/-! ## Bindings and completions -/

theorem completion_assign {assignment next : Assignment} {l : Lit}
    (assigned : assignment.assign l = .ok next) :
    next.completion = Function.update assignment.completion l.var l.isPositive := by
  funext v
  rw [Assignment.completion, Assignment.value_assign assigned]
  by_cases same : v = l.var
  · rw [if_pos same, same, Function.update_self, Option.getD_some]
  · rw [if_neg same, Function.update_of_ne same, Assignment.completion]

theorem completion_unassign (assignment : Assignment) (v : Var) :
    (assignment.unassign v).completion = Function.update assignment.completion v false := by
  funext w
  rw [Assignment.completion, Assignment.value_unassign]
  by_cases same : w = v
  · rw [if_pos same, same, Function.update_self, Option.getD_none]
  · rw [if_neg same, Function.update_of_ne same, Assignment.completion]

theorem completion_of_eq_none {assignment : Assignment} {v : Var}
    (unbound : assignment.value v = none) : assignment.completion v = false := by
  rw [Assignment.completion, unbound, Option.getD_none]

theorem completion_assignVar_false {assignment next : Assignment} {v : Var}
    (assigned : assignment.assignVar v false = .ok next) :
    next.completion = assignment.completion := by
  have unbound := Assignment.unbound_of_assign assigned
  rw [Lit.var_lit] at unbound
  rw [completion_assign assigned, Lit.var_lit, Lit.isPositive_lit, ← completion_of_eq_none unbound,
    Function.update_eq_self]

theorem isSome_assignVar_iff {assignment next : Assignment} {v : Var} {polarity : Bool}
    (assigned : assignment.assignVar v polarity = .ok next) (w : Var) :
    (next.value w).isSome ↔ w = v ∨ (assignment.value w).isSome := by
  rw [Assignment.value_assign assigned, Lit.var_lit]
  by_cases same : w = v
  · simp [same]
  · simp [same]

theorem exists_assignVar {assignment : Assignment} {v : Var} (unbound : assignment.value v = none)
    (polarity : Bool) : ∃ next, assignment.assignVar v polarity = .ok next := by
  refine Assignment.assign_of_unbound ?_
  rw [Lit.var_lit]
  exact unbound

theorem exists_rebind {assignment : Assignment} {v : Var} (bound : (assignment.value v).isSome)
    (polarity : Bool) :
    ∃ next, (assignment.unassign v).assignVar v polarity = .ok next ∧
      next.completion = Function.update assignment.completion v polarity ∧
      ∀ w, (next.value w).isSome ↔ (assignment.value w).isSome := by
  have isFree : (assignment.unassign v).value v = none := by
    rw [Assignment.value_unassign, if_pos rfl]
  obtain ⟨next, assigned⟩ := exists_assignVar isFree polarity
  refine ⟨next, assigned, ?_, ?_⟩
  · rw [completion_assign assigned, completion_unassign, Lit.var_lit, Lit.isPositive_lit,
      Function.update_idem]
  · intro w
    rw [isSome_assignVar_iff assigned, Assignment.value_unassign]
    by_cases same : w = v
    · simp [same, bound]
    · simp [same]

theorem exists_fillFalse (pivot : Var) (lits : List Lit) (assignment : Assignment) :
    ∃ filled, fillFalse pivot assignment lits = .ok filled ∧
      filled.completion = assignment.completion ∧
      ∀ v, (filled.value v).isSome ↔
        (assignment.value v).isSome ∨ (v ≠ pivot ∧ ∃ l ∈ lits, l.var = v) := by
  induction lits generalizing assignment with
  | nil => exact ⟨assignment, rfl, rfl, by simp⟩
  | cons l rest inductionHypothesis =>
      by_cases toFill : (l.var != pivot && (assignment.value l.var).isNone) = true
      · obtain ⟨other, isOpen⟩ : l.var ≠ pivot ∧ assignment.value l.var = none := by
          simpa using toFill
        obtain ⟨next, assigned⟩ := exists_assignVar isOpen false
        obtain ⟨filled, run, sameCompletion, boundIff⟩ := inductionHypothesis next
        refine ⟨filled, ?_, ?_, ?_⟩
        · simp only [fillFalse, toFill, if_true, assigned, run]
        · rw [sameCompletion, completion_assignVar_false assigned]
        · intro v
          rw [boundIff, isSome_assignVar_iff assigned, List.exists_mem_cons_iff]
          by_cases sameVar : l.var = v
          · simp [← sameVar, other]
          · simp [sameVar, Ne.symm sameVar]
      · obtain ⟨filled, run, sameCompletion, boundIff⟩ := inductionHypothesis assignment
        have passedOver : l.var ≠ pivot → (assignment.value l.var).isSome := by
          intro other
          simpa [other, Option.isSome_iff_ne_none] using toFill
        refine ⟨filled, ?_, sameCompletion, ?_⟩
        · simp only [fillFalse, toFill, run]
          rfl
        · intro v
          rw [boundIff, List.exists_mem_cons_iff]
          by_cases sameVar : l.var = v
          · rw [← sameVar]
            by_cases isPivot : l.var = pivot
            · simp [isPivot]
            · simp [passedOver isPivot]
          · simp [sameVar]

theorem models_congr_variables {clauses : List Clause} {valuation other : Valuation}
    (agree : ∀ v ∈ variablesOf clauses, valuation v = other v) :
    Valuation.Models valuation (clauses.map Clause.lits) ↔
      Valuation.Models other (clauses.map Clause.lits) := by
  simp only [Valuation.Models, List.forall_mem_map]
  refine forall₂_congr fun c member => satisfies_congr ?_
  intro l inClause
  exact agree l.var (mem_variablesOf.mpr ⟨c, member, l, inClause, rfl⟩)

theorem isSatisfied_iff (level : EliminationLevel) {assignment : Assignment}
    (bound : ∀ v ∈ variablesOf level.clauses, (assignment.value v).isSome) :
    level.isSatisfied assignment = true ↔
      Valuation.Models assignment.completion (level.clauses.map Clause.lits) := by
  simp only [EliminationLevel.isSatisfied, List.all_eq_true, Valuation.Models, List.forall_mem_map]
  refine forall₂_congr ?_
  intro c member
  rw [Assignment.satisfies, List.any_eq_true]
  refine exists_congr ?_
  intro l
  refine and_congr_right ?_
  intro inClause
  have occurs : l.var ∈ variablesOf level.clauses :=
    mem_variablesOf.mpr ⟨c, member, l, inClause, rfl⟩
  exact (holds_completion_iff (bound l.var occurs)).symm

/-! ## One level -/

section Level

variable {kept next : List Clause} {pivot : Var} {assignment : Assignment}

theorem Eliminated.constrained_next (eliminated : Eliminated kept pivot next) {v : Var}
    (constrained : Constrained (next.map Clause.lits) v) :
    v ∈ variablesOf kept ∧ v ≠ pivot := by
  obtain ⟨lits, member, _, l, inClause, sameVar⟩ := constrained
  obtain ⟨c, cIn, same⟩ := List.mem_map.mp member
  subst same
  rw [← sameVar]
  exact eliminated.projects.var_mem cIn inClause

/-- Filling a level binds just its variables, and binding its pivot is still possible. -/
theorem exists_filled (eliminated : Eliminated kept pivot next)
    (isLeast : LeastModel (next.map Clause.lits) assignment) :
    ∃ filled low, fillFalse pivot assignment (kept.flatMap Clause.lits) = .ok filled ∧
      filled.assignVar pivot false = .ok low ∧
      low.completion = Function.update assignment.completion pivot false ∧
      ∀ v, (low.value v).isSome ↔ v ∈ variablesOf kept := by
  have boundNext : ∀ v, (assignment.value v).isSome → v ∈ variablesOf kept ∧ v ≠ pivot :=
    fun v bound => eliminated.constrained_next ((isLeast.bound_iff v).mp bound)
  obtain ⟨filled, filling, filledCompletion, filledBound⟩ :=
    exists_fillFalse pivot (kept.flatMap Clause.lits) assignment
  have pivotOpen : filled.value pivot = none := by
    rw [← Option.not_isSome_iff_eq_none, filledBound]
    rintro (bound | ⟨notPivot, _⟩)
    · exact (boundNext pivot bound).2 rfl
    · exact notPivot rfl
  obtain ⟨low, assigned⟩ := exists_assignVar pivotOpen false
  refine ⟨filled, low, filling, assigned, ?_, ?_⟩
  · rw [completion_assign assigned, filledCompletion, Lit.var_lit, Lit.isPositive_lit]
  · intro v
    have mentioned : v ∈ variablesOf kept ↔ ∃ l ∈ kept.flatMap Clause.lits, l.var = v :=
      mem_variablesOfLits
    rw [isSome_assignVar_iff assigned, filledBound, ← mentioned]
    constructor
    · rintro (same | bound | ⟨_, occurs⟩)
      · exact same ▸ eliminated.occurs
      · exact (boundNext v bound).1
      · exact occurs
    · intro occurs
      by_cases same : v = pivot
      · exact .inl same
      · exact .inr (.inr ⟨same, occurs⟩)

/-- A model of what an elimination leaves is extended to its level, with the pivot false if that
satisfies the level. -/
theorem exists_extendModel (eliminated : Eliminated kept pivot next)
    (isLeast : LeastModel (next.map Clause.lits) assignment) :
    ∃ extended polarity, extendModel ⟨pivot, kept⟩ assignment = .ok extended ∧
      (∀ v, (extended.value v).isSome ↔ v ∈ variablesOf kept) ∧
      extended.completion = Function.update assignment.completion pivot polarity ∧
      Valuation.Models extended.completion (kept.map Clause.lits) ∧
      (polarity = true → ¬Valuation.Models (Function.update assignment.completion pivot false)
        (kept.map Clause.lits)) := by
  obtain ⟨filled, low, filling, assignedLow, lowCompletion, lowBound⟩ :=
    exists_filled eliminated isLeast
  have lowSatisfied := isSatisfied_iff ⟨pivot, kept⟩ fun v => (lowBound v).mpr
  rw [lowCompletion] at lowSatisfied
  by_cases falseDoes : Valuation.Models (Function.update assignment.completion pivot false)
      (kept.map Clause.lits)
  · refine ⟨low, false, ?_, lowBound, lowCompletion, lowCompletion ▸ falseDoes, Bool.noConfusion⟩
    simp only [extendModel, filling, bind, Except.bind, assignedLow,
      if_pos (lowSatisfied.mpr falseDoes)]
    rfl
  · obtain ⟨high, assignedHigh, highCompletion, sameBound⟩ :=
      exists_rebind ((lowBound pivot).mpr eliminated.occurs) true
    rw [lowCompletion, Function.update_idem] at highCompletion
    have highBound : ∀ v, (high.value v).isSome ↔ v ∈ variablesOf kept :=
      fun v => (sameBound v).trans (lowBound v)
    have trueDoes := eliminated.projects.models_update_true isLeast.models falseDoes
    have highSatisfied := isSatisfied_iff ⟨pivot, kept⟩ fun v => (highBound v).mpr
    rw [highCompletion] at highSatisfied
    refine ⟨high, true, ?_, highBound, highCompletion, highCompletion ▸ trueDoes,
      fun _ => falseDoes⟩
    simp only [extendModel, filling, bind, Except.bind, assignedLow,
      if_neg (mt lowSatisfied.mp falseDoes), assignedHigh, if_pos (highSatisfied.mpr trueDoes)]
    rfl

/-- A level extends the least model of what its elimination leaves to its own least model. -/
theorem LeastModel.extend (isLeast : LeastModel (next.map Clause.lits) assignment)
    (eliminated : Eliminated kept pivot next) :
    ∃ extended, extendModel ⟨pivot, kept⟩ assignment = .ok extended ∧
      LeastModel (kept.map Clause.lits) extended := by
  obtain ⟨extended, polarity, run, bound, completion, models, onlyThen⟩ :=
    exists_extendModel eliminated isLeast
  have constrainedIff := constrained_iff_of_proper eliminated.proper
  refine ⟨extended, run, fun v => (bound v).trans (constrainedIff v).symm, models, ?_⟩
  intro valuation valuationModels v constrained agree isTrue
  have occurs := (constrainedIff v).mp constrained
  have agreeAbove : ∀ w ∈ variablesOf kept, v < w → extended.completion w = valuation w :=
    fun w inKept above => agree w ((constrainedIff w).mpr inKept) above
  by_cases isPivot : v = pivot
  · subst isPivot
    rw [completion, Function.update_self] at isTrue
    by_contra notTrue
    -- the other variables of the level are above the pivot, so the model has their values
    refine onlyThen isTrue ((models_congr_variables ?_).mp valuationModels)
    intro w inKept
    by_cases same : w = v
    · rw [same, Function.update_self]
      exact Bool.eq_false_iff.mpr notTrue
    · have sameValue := agreeAbove w inKept (eliminated.smallest w inKept same)
      rw [completion, Function.update_of_ne same] at sameValue
      rw [Function.update_of_ne same, sameValue]
  · rw [completion, Function.update_of_ne isPivot] at isTrue
    have boundBefore : (assignment.value v).isSome := by
      by_contra unbound
      rw [completion_of_eq_none (Option.not_isSome_iff_eq_none.mp unbound)] at isTrue
      cases isTrue
    refine isLeast.least valuation (eliminated.projects.models_next valuationModels) v
      ((isLeast.bound_iff v).mp boundBefore) ?_ isTrue
    intro w wConstrained above
    obtain ⟨wIn, notPivot⟩ := eliminated.constrained_next wConstrained
    have same := agreeAbove w wIn above
    rwa [completion, Function.update_of_ne notPivot] at same

end Level

/-! ## A whole run -/

theorem extendThrough_append (assignment : Assignment) (front back : List EliminationLevel) :
    extendThrough assignment (front ++ back) =
      (extendThrough assignment front).bind (extendThrough · back) := by
  induction front generalizing assignment with
  | nil => rfl
  | cons level rest inductionHypothesis =>
      rw [List.cons_append, extendThrough, extendThrough]
      cases extendModel level assignment with
      | error fault => rfl
      | ok next => exact inductionHypothesis next

section Run

variable {clauses kept : List Clause}

theorem leastModel_withRoom (allTautologies : ∀ c ∈ clauses, ¬Proper c.lits) (room : Nat) :
    LeastModel (clauses.map Clause.lits) (.withRoom room) := by
  have notConstrained : ∀ v, ¬Constrained (clauses.map Clause.lits) v := by
    rintro v ⟨lits, member, proper, _⟩
    obtain ⟨c, cIn, same⟩ := List.mem_map.mp member
    subst same
    exact allTautologies c cIn proper
  constructor
  · intro v
    constructor
    · intro bound
      cases bound
    · intro constrained
      exact absurd constrained (notConstrained v)
  · simp only [Valuation.Models, List.forall_mem_map]
    intro c cIn
    exact satisfies_of_not_proper (allTautologies c cIn) _
  · intro valuation _ v constrained
    exact absurd constrained (notConstrained v)

/-- What a run of eliminations answers: levels that lead from the empty assignment to the least
model, put before the levels it started with. -/
def Reaches (clauses : List Clause) (levels : List EliminationLevel) :
    Option (List EliminationLevel) → Prop
  | none => ¬Satisfiable (clauses.map Clause.lits)
  | some all => ∃ later, all = later ++ levels ∧ ∀ room, ∃ assignment,
      extendThrough (.withRoom room) later = .ok assignment ∧
      LeastModel (clauses.map Clause.lits) assignment

theorem reaches_cons {next : List Clause} {pivot : Var} {levels : List EliminationLevel}
    {answer : Option (List EliminationLevel)} (simplified : simplify clauses = .remaining kept)
    (eliminated : Eliminated kept pivot next)
    (reaches : Reaches next (⟨pivot, kept⟩ :: levels) answer) : Reaches clauses levels answer := by
  have keptIff : ∀ c, c ∈ kept ↔ c ∈ clauses ∧ Proper c.lits :=
    mem_kept_iff (fun _ => Clause.isTautology_eq_false_iff) simplified
  have modelsIff : ∀ valuation : Valuation, Valuation.Models valuation (clauses.map Clause.lits) ↔
      Valuation.Models valuation (kept.map Clause.lits) :=
    fun _ => (models_kept_iff (fun _ => Clause.isTautology_eq_false_iff) simplified).symm
  cases answer with
  | none =>
      rintro ⟨valuation, models⟩
      exact reaches ⟨valuation, eliminated.projects.models_next ((modelsIff valuation).mp models)⟩
  | some all =>
      obtain ⟨later, isAppend, leads⟩ := reaches
      refine ⟨later ++ [⟨pivot, kept⟩], by simp [isAppend], ?_⟩
      intro room
      obtain ⟨assignment, run, isLeast⟩ := leads room
      obtain ⟨extended, extension, extendedLeast⟩ := isLeast.extend eliminated
      refine ⟨extended, ?_, extendedLeast.congr (constrained_kept_iff keptIff) modelsIff⟩
      rw [extendThrough_append, run]
      simp only [Except.bind, extendThrough, extension]

theorem eliminateFrom_reaches (levels : List EliminationLevel) (clauses : List Clause)
    (progress : Progress) :
    ∃ answer, (eliminateFrom levels clauses progress).result = .ok answer ∧
      Reaches clauses levels answer := by
  fun_induction eliminateFrom levels clauses progress with
  | case1 levels clauses progress after fault run => exact absurd run eliminateSmallest_ne_stopped
  | case2 levels clauses progress after run =>
      obtain ⟨simplified, _⟩ := describes_of_done run
      exact ⟨none, rfl, not_satisfiable_of_unsat (fun _ => List.isEmpty_iff) simplified⟩
  | case3 levels clauses progress after run =>
      obtain ⟨simplified, _⟩ := describes_of_done run
      have allTautologies : ∀ c ∈ clauses, ¬Proper c.lits := fun c member =>
        not_proper_of_sat (fun _ => Clause.isTautology_eq_false_iff) simplified member
      exact ⟨some levels, rfl, [], rfl,
        fun room => ⟨.withRoom room, rfl, leastModel_withRoom allTautologies room⟩⟩
  | case4 levels clauses progress after level next run inductionHypothesis =>
      obtain ⟨⟨simplified, eliminated⟩, _⟩ := describes_of_done run
      obtain ⟨answer, rest, reaches⟩ := inductionHypothesis
      exact ⟨answer, rest, reaches_cons simplified eliminated reaches⟩

/-- What elimination answers: the least model, or nothing for clauses without a model. -/
def Minimizes (clauses : List (List Lit)) : Option Assignment → Prop
  | none => ¬Satisfiable clauses
  | some assignment => LeastModel clauses assignment

theorem eliminate_minimizes (clauses : List Clause) (varCount : Nat) (progress : Progress) :
    ∃ found, (eliminate clauses varCount progress).result = .ok found ∧
      Minimizes (clauses.map Clause.lits) found := by
  obtain ⟨answer, run, reaches⟩ := eliminateFrom_reaches [] clauses progress
  cases answered : eliminateFrom [] clauses progress with
  | mk after result =>
      rw [answered] at run
      subst run
      cases answer with
      | none => exact ⟨none, by simp only [eliminate, answered]; rfl, reaches⟩
      | some levels =>
          obtain ⟨later, isAppend, leads⟩ := reaches
          obtain ⟨assignment, extended, isLeast⟩ := leads varCount
          rw [List.append_nil] at isAppend
          subst isAppend
          refine ⟨some assignment, ?_, isLeast⟩
          simp only [eliminate, answered, extended]
          rfl

theorem found_eq_none_iff {clauses : List (List Lit)} {found : Option Assignment}
    (minimizes : Minimizes clauses found) : found = none ↔ ¬Satisfiable clauses := by
  cases found with
  | none => exact ⟨fun _ => minimizes, fun _ => rfl⟩
  | some assignment =>
      constructor
      · intro different
        cases different
      · intro unsatisfiable
        exact absurd ⟨_, minimizes.models⟩ unsatisfiable

theorem trueLits_eq_of_minimizes {clauses others : List (List Lit)}
    (sameMembers : ∀ lits, lits ∈ others ↔ lits ∈ clauses) {found otherFound : Option Assignment}
    (minimizes : Minimizes clauses found) (otherMinimizes : Minimizes others otherFound) :
    otherFound.map Assignment.trueLits = found.map Assignment.trueLits := by
  have satisfiableIff : Satisfiable others ↔ Satisfiable clauses :=
    exists_congr (models_of_mem_iff sameMembers)
  cases found with
  | none =>
      have otherNone := (found_eq_none_iff otherMinimizes).mpr (mt satisfiableIff.mp minimizes)
      rw [otherNone]
  | some assignment =>
      cases otherFound with
      | none => exact absurd (satisfiableIff.mpr ⟨_, minimizes.models⟩) otherMinimizes
      | some other =>
          have sameValues := minimizes.value_eq otherMinimizes sameMembers
          exact congrArg some (trueLits_eq_of_value_eq sameValues)

/-- Elimination finds the canonical model: nothing exactly when no valuation satisfies the clauses,
and else the assignment of just the constrained variables that satisfies them and precedes every
other model.  Its true literals are those of any list with the same clauses. -/
theorem eliminate_canonical (clauses : List Clause) (varCount : Nat) (progress : Progress) :
    ∃ found, (eliminate clauses varCount progress).result = .ok found ∧
      (found = none ↔ ¬Satisfiable (clauses.map Clause.lits)) ∧
      (∀ assignment, found = some assignment →
        (∀ v, (assignment.value v).isSome ↔ Constrained (clauses.map Clause.lits) v) ∧
        (∀ valuation, Valuation.Extends valuation assignment →
          Valuation.Models valuation (clauses.map Clause.lits)) ∧
        ∀ valuation, Valuation.Models valuation (clauses.map Clause.lits) →
          (∀ v, Constrained (clauses.map Clause.lits) v →
            assignment.value v = some (valuation v)) ∨
          Precedes (Constrained (clauses.map Clause.lits)) assignment.completion valuation) ∧
      ∀ others otherCount otherProgress, (∀ c, c ∈ others ↔ c ∈ clauses) →
        (eliminate others otherCount otherProgress).result.map (Option.map Assignment.trueLits) =
          .ok (found.map Assignment.trueLits) := by
  obtain ⟨found, run, minimizes⟩ := eliminate_minimizes clauses varCount progress
  refine ⟨found, run, found_eq_none_iff minimizes, ?_, ?_⟩
  · rintro assignment rfl
    have isLeast : LeastModel (clauses.map Clause.lits) assignment := minimizes
    exact ⟨isLeast.bound_iff, fun _ => isLeast.models_of_extends, fun _ => isLeast.eq_or_precedes⟩
  · intro others otherCount otherProgress sameMembers
    obtain ⟨otherFound, otherRun, otherMinimizes⟩ :=
      eliminate_minimizes others otherCount otherProgress
    have sameLits : ∀ lits, lits ∈ others.map Clause.lits ↔ lits ∈ clauses.map Clause.lits := by
      simp only [List.mem_map, sameMembers, implies_true]
    rw [otherRun, Except.map, trueLits_eq_of_minimizes sameLits minimizes otherMinimizes]

end Run

end Clausal
