import Mathlib.Data.List.Perm.Basic
import Clausal.Proofs.PropagationFixpoint
import Clausal.Proofs.SuccessiveReduction

/-!
# Confluence of unit propagation

An assignment is stable when no clause is false under it and none has one literal left.  Whatever
the unit rule forces holds in every stable assignment that extends the start (`Forces.within`), so
runs that end without a conflict end with the least one.  Which assignments are stable does not
depend on the order of the clauses and their literals, and so neither does the end of a run
(`propagate_rearranged`).
-/

set_option autoImplicit false

namespace Clausal

/-- Lists that differ in the order of the clauses and in the order of the literals inside them. -/
def Rearranged (clauses others : List (List Lit)) : Prop :=
  ∃ middle, clauses.Perm middle ∧ List.Forall₂ List.Perm middle others

/-- Each clause has a true literal or two literals that are not false. -/
def Stable (clauses : List (List Lit)) (assignment : Assignment) : Prop :=
  ∀ clause ∈ clauses,
    clause.any assignment.isTrue = true ∨ 2 ≤ (assignment.openLits clause).length

/-! ## Order of clauses and literals -/

namespace Rearranged

variable {clauses others : List (List Lit)}

theorem symm (rearranged : Rearranged clauses others) : Rearranged others clauses := by
  obtain ⟨middle, perm, related⟩ := rearranged
  have back : List.Forall₂ List.Perm others middle :=
    List.Forall₂.flip (related.imp fun _ _ => List.Perm.symm)
  have swapped : Relation.Comp (List.Forall₂ List.Perm) List.Perm others clauses :=
    ⟨middle, back, perm.symm⟩
  rwa [List.forall₂_comp_perm_eq_perm_comp_forall₂] at swapped

theorem exists_perm (rearranged : Rearranged clauses others) {clause : List Lit}
    (member : clause ∈ clauses) : ∃ other ∈ others, clause.Perm other := by
  obtain ⟨middle, perm, related⟩ := rearranged
  have inMiddle := perm.mem_iff.mp member
  clear perm
  induction related with
  | nil => cases inMiddle
  | cons first rest inductionHypothesis =>
      rcases List.mem_cons.mp inMiddle with rfl | later
      · exact ⟨_, List.mem_cons_self, first⟩
      · obtain ⟨other, inRest, same⟩ := inductionHypothesis later
        exact ⟨other, List.mem_cons_of_mem _ inRest, same⟩

theorem stable (rearranged : Rearranged clauses others) {assignment : Assignment}
    (isStable : Stable others assignment) : Stable clauses assignment := by
  intro clause member
  obtain ⟨other, inOthers, same⟩ := rearranged.exists_perm member
  rw [same.any_eq, Assignment.openLits, (same.filter _).length_eq]
  exact isStable other inOthers

theorem satisfied (rearranged : Rearranged clauses others) {assignment : Assignment}
    (allTrue : ∀ clause ∈ others, ∃ l ∈ clause, assignment.isTrue l = true) :
    ∀ clause ∈ clauses, ∃ l ∈ clause, assignment.isTrue l = true := by
  intro clause member
  obtain ⟨other, inOthers, same⟩ := rearranged.exists_perm member
  obtain ⟨l, inOther, isTrue⟩ := allTrue other inOthers
  exact ⟨l, same.mem_iff.mpr inOther, isTrue⟩

end Rearranged

/-! ## Extension of assignments -/

namespace Assignment.Extends

variable {assignment bound next : Assignment}

theorem of_assign (keeps : bound.Extends assignment) {l : Lit}
    (assigned : assignment.assign l = .ok next) (isTrue : bound.isTrue l = true) :
    bound.Extends next := by
  intro v polarity hasValue
  rw [value_assign assigned] at hasValue
  split at hasValue
  · next same =>
      cases hasValue
      rwa [same, ← isTrue_iff_value]
  · exact keeps v polarity hasValue

theorem trueLits_eq (keeps : bound.Extends assignment) (kept : assignment.Extends bound) :
    bound.trueLits = assignment.trueLits := by
  refine trueLits_eq_of_value_eq ?_
  intro v
  exact Option.ext fun polarity => ⟨kept v polarity, keeps v polarity⟩

end Assignment.Extends

/-! ## Stable assignments -/

section Stable

variable {clauses : List (List Lit)} {assignment bound : Assignment}

theorem Fixpoint.stable {pureLiterals : Bool} {outcome : Propagation}
    (fixpoint : Fixpoint clauses pureLiterals assignment outcome)
    (noConflict : outcome ≠ .conflict) : Stable clauses assignment := by
  intro clause member
  cases outcome with
  | conflict => exact absurd rfl noConflict
  | satisfied => exact .inl (List.any_eq_true.mpr (fixpoint.satisfied_iff.mp rfl clause member))
  | undecided l =>
      obtain ⟨_, residual, reduced, irreducible⟩ := fixpoint.undecided l rfl
      cases anyTrue : clause.any assignment.isTrue with
      | true => exact .inl rfl
      | false =>
          have inResidual := (mem_residual_iff reduced).mpr ⟨clause, member, anyTrue, rfl⟩
          have notOne := irreducible.noUnit _ inResidual
          have notEmpty := List.length_pos_iff.mpr (ne_nil_of_mem_residual reduced inResidual)
          exact .inr (by omega)

theorem Stable.not_false (isStable : Stable clauses bound) (keeps : bound.Extends assignment) :
    ¬∃ clause ∈ clauses, ∀ l ∈ clause, assignment.isFalse l = true := by
  rintro ⟨clause, member, allFalse⟩
  rcases isStable clause member with anyTrue | twoOpen
  · obtain ⟨l, inClause, isTrue⟩ := List.any_eq_true.mp anyTrue
    rw [isTrue_eq_false (keeps.isFalse (allFalse l inClause))] at isTrue
    cases isTrue
  · have fewer := keeps.length_openLits_le clause
    rw [Assignment.openLits_eq_nil_iff.mpr allFalse, List.length_nil] at fewer
    omega

theorem Stable.isTrue_of_force (isStable : Stable clauses bound)
    (keeps : bound.Extends assignment) {rule : Rule} {l : Lit}
    (step : nextStep clauses false assignment = .force rule l) : bound.isTrue l = true := by
  obtain ⟨_, residual, reduced, isUnit⟩ := unit_of_force step
  obtain ⟨clause, member, _, onlyOpen⟩ := (mem_residual_iff reduced).mp isUnit
  -- `bound` leaves no more of the clause open than `l`, so this is what makes it stable.
  rcases isStable clause member with anyTrue | twoOpen
  · obtain ⟨m, inClause, isTrue⟩ := List.any_eq_true.mp anyTrue
    have isOpen : m ∈ bound.openLits clause := by
      refine List.mem_filter.mpr ⟨inClause, ?_⟩
      cases isFalse : bound.isFalse m with
      | false => rfl
      | true =>
          rw [isTrue_eq_false isFalse] at isTrue
          cases isTrue
    have wasOpen := keeps.mem_openLits isOpen
    rw [← onlyOpen, List.mem_singleton] at wasOpen
    rwa [← wasOpen]
  · have fewer := keeps.length_openLits_le clause
    rw [← onlyOpen, List.length_singleton] at fewer
    omega

theorem Forces.within {start final : Assignment} {forced : List (Rule × Lit)}
    (forces : Forces clauses false start forced final) (isStable : Stable clauses bound)
    (keeps : bound.Extends start) : bound.Extends final := by
  -- Each forced literal is true in `bound`, which so extends every assignment of the run.
  induction forces with
  | done => exact keeps
  | force step assigned rest inductionHypothesis =>
      exact inductionHypothesis (keeps.of_assign assigned (isStable.isTrue_of_force keeps step))

end Stable

/-! ## Two runs -/

section Runs

variable {clauses others : List (List Lit)} {start final otherFinal : Assignment}
  {forced otherForced : List (Rule × Lit)} {outcome otherOutcome : Propagation}

theorem Forces.countP_pure (forces : Forces clauses false start forced final) :
    (forced.countP fun f => f.1 == .pure) = 0 := by
  induction forces with
  | done => rfl
  | force step assigned rest inductionHypothesis =>
      rw [List.countP_cons, inductionHypothesis, (unit_of_force step).1]
      rfl

theorem Forces.stats_eq (forces : Forces clauses false start forced final)
    (otherForces : Forces others false start otherForced otherFinal)
    (sameLits : otherFinal.trueLits = final.trueLits) (progress : Progress) :
    (progress.forceAll otherForced).stats = (progress.forceAll forced).stats := by
  have sameLength := forces.perm_trueLits.length_eq.symm.trans
    ((congrArg List.length sameLits).symm.trans otherForces.perm_trueLits.length_eq)
  simp only [List.length_append, List.length_map] at sameLength
  have counted := countP_rules forced
  have otherCounted := countP_rules otherForced
  rw [forces.countP_pure] at counted
  rw [otherForces.countP_pure] at otherCounted
  have sameUnits : (otherForced.countP fun f => f.1 == .unit) =
      forced.countP fun f => f.1 == .unit := by
    omega
  rw [stats_forceAll, stats_forceAll, forces.countP_pure, otherForces.countP_pure, sameUnits]

theorem Forces.extends_other (forces : Forces clauses false start forced final)
    (rearranged : Rearranged clauses others)
    (otherForces : Forces others false start otherForced otherFinal)
    (otherEnds : Fixpoint others false otherFinal otherOutcome)
    (noConflict : otherOutcome ≠ .conflict) :
    otherFinal.Extends final ∧ ¬∃ clause ∈ clauses, ∀ l ∈ clause, final.isFalse l = true := by
  have isStable := rearranged.stable (otherEnds.stable noConflict)
  have keeps := forces.within isStable otherForces.extends_start
  exact ⟨keeps, isStable.not_false keeps⟩

theorem Fixpoint.satisfied_other (ends : Fixpoint clauses false final .satisfied)
    (rearranged : Rearranged clauses others)
    (otherEnds : Fixpoint others false otherFinal otherOutcome)
    (keeps : otherFinal.Extends final) : otherOutcome = .satisfied := by
  refine otherEnds.satisfied_iff.mpr (rearranged.symm.satisfied ?_)
  intro clause member
  obtain ⟨l, inClause, isTrue⟩ := ends.satisfied_iff.mp rfl clause member
  exact ⟨l, inClause, keeps.isTrue isTrue⟩

end Runs

/-- Unit propagation over rearranged clauses reports a conflict both times or never.  Without a
conflict it ends with the same true literals, the same counters, and the same outcome but for the
literal to branch on. -/
theorem propagate_rearranged {clauses others : List (List Lit)}
    (rearranged : Rearranged clauses others) (start : Assignment) (progress : Progress) :
    ∃ outcome final otherOutcome otherFinal,
      (propagate clauses false start progress).result = .ok (outcome, final) ∧
      (propagate others false start progress).result = .ok (otherOutcome, otherFinal) ∧
      (outcome = .conflict ↔ otherOutcome = .conflict) ∧
      (outcome ≠ .conflict →
        otherFinal.trueLits = final.trueLits ∧
        (propagate others false start progress).progress.stats =
          (propagate clauses false start progress).progress.stats ∧
        (outcome = .satisfied ∧ otherOutcome = .satisfied ∨
          ∃ l m, outcome = .undecided l ∧ otherOutcome = .undecided m)) := by
  obtain ⟨outcome, final, forced, forces, lastStep, run⟩ :=
    propagate_forces clauses false start progress
  obtain ⟨otherOutcome, otherFinal, otherForced, otherForces, otherLastStep, otherRun⟩ :=
    propagate_forces others false start progress
  have ends := fixpoint_of_step lastStep
  have otherEnds := fixpoint_of_step otherLastStep
  have conflictIff : outcome = .conflict ↔ otherOutcome = .conflict := by
    rw [← not_iff_not]
    constructor
    · intro noConflict
      rw [otherEnds.conflict_iff]
      exact (otherForces.extends_other rearranged.symm forces ends noConflict).2
    · intro noConflict
      rw [ends.conflict_iff]
      exact (forces.extends_other rearranged otherForces otherEnds noConflict).2
  rw [run, otherRun]
  refine ⟨outcome, final, otherOutcome, otherFinal, rfl, rfl, conflictIff, ?_⟩
  intro noConflict
  have otherNoConflict := mt conflictIff.mpr noConflict
  have keeps := (forces.extends_other rearranged otherForces otherEnds otherNoConflict).1
  have kept := (otherForces.extends_other rearranged.symm forces ends noConflict).1
  have sameLits := keeps.trueLits_eq kept
  refine ⟨sameLits, forces.stats_eq otherForces sameLits progress, ?_⟩
  cases outcome with
  | conflict => exact absurd rfl noConflict
  | satisfied => exact .inl ⟨rfl, ends.satisfied_other rearranged otherEnds keeps⟩
  | undecided l =>
      cases otherOutcome with
      | conflict => exact absurd rfl otherNoConflict
      | satisfied => exact absurd (otherEnds.satisfied_other rearranged.symm ends kept) (by simp)
      | undecided m => exact .inr ⟨l, m, rfl, rfl⟩

theorem propagate_rearranged_repeated_literal :
    let x : Var := ⟨0, by decide⟩
    let y : Var := ⟨1, by decide⟩
    let z : Var := ⟨2, by decide⟩
    let w : Var := ⟨3, by decide⟩
    let clauses := [[y.negative, w.positive, w.positive], [x.negative, y.positive], [x.positive],
      [z.positive, w.positive]]
    let others := [[z.positive, w.positive], [x.positive],
      [w.positive, y.negative, w.positive], [y.positive, x.negative]]
    let start := Assignment.withRoom 0
    Rearranged clauses others ∧
      (propagate clauses false start {}).result.map (Prod.map id Assignment.trueLits) =
        .ok (.undecided w.positive, [x.positive, y.positive]) ∧
      (∃ m otherFinal,
        (propagate others false start {}).result = .ok (.undecided m, otherFinal) ∧
        otherFinal.trueLits = [x.positive, y.positive]) ∧
      (propagate others false start {}).progress.stats.propagations = 2 := by
  intro x y z w clauses others start
  have rearranged : Rearranged clauses others :=
    ⟨[[z.positive, w.positive], [x.positive], [y.negative, w.positive, w.positive],
      [x.negative, y.positive]], by decide,
      .cons (by decide) (.cons (by decide) (.cons (by decide) (.cons (by decide) .nil)))⟩
  have answered : (propagate clauses false start {}).result.map
      (Prod.map id Assignment.trueLits) =
        .ok (.undecided w.positive, [x.positive, y.positive]) := by decide +kernel
  have counted : (propagate clauses false start {}).progress.stats.propagations = 2 := by
    decide +kernel
  refine ⟨rearranged, answered, ?_⟩
  obtain ⟨outcome, final, otherOutcome, otherFinal, run, otherRun, _, agree⟩ :=
    propagate_rearranged rearranged start {}
  rw [run] at answered
  obtain ⟨rfl, listed⟩ := Prod.mk.inj (Except.ok.inj answered)
  obtain ⟨sameLits, sameStats, ⟨isSatisfied, _⟩ | ⟨_, m, _, rfl⟩⟩ := agree (by simp)
  · cases isSatisfied
  · exact ⟨⟨m, otherFinal, otherRun, sameLits.trans listed⟩, by rw [sameStats, counted]⟩

end Clausal
