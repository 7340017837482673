import Clausal.Proofs.Residual

/-!
# Forced literals

Propagation is a sequence of literals that the rules force one after the other (`Forces`).  It
stops without a fault at an assignment at which no rule applies, and notes and counts just the
forced literals (`propagate_forces`).  What one forced literal keeps the whole run keeps: bindings
stay, each literal binds another open variable of the clauses, and a model is kept unless there
is none.
-/

set_option autoImplicit false

namespace Clausal

/-! ## One step -/

def Step.Describes (clauses : List (List Lit)) (pureLiterals : Bool) (assignment : Assignment) :
    Step → Prop
  | .conflict => reduce? assignment clauses = none
  | .force .unit l => ∃ residual, reduce? assignment clauses = some residual ∧ [l] ∈ residual
  | .force .pure l => pureLiterals = true ∧
      ∃ residual, reduce? assignment clauses = some residual ∧ pureLit? residual = some l
  | .satisfied => reduce? assignment clauses = some []
  | .branch l => ∃ residual, reduce? assignment clauses = some residual ∧
      residual.flatten.head? = some l ∧ residual.findSome? unitLit? = none ∧
      (pureLiterals = true → pureLit? residual = none)

theorem nextStep_describes (clauses : List (List Lit)) (pureLiterals : Bool)
    (assignment : Assignment) :
    (nextStep clauses pureLiterals assignment).Describes clauses pureLiterals assignment := by
  cases reduced : reduce? assignment clauses with
  | none =>
      simp only [nextStep, reduced]
      exact reduced
  | some residual =>
      simp only [nextStep, reduced]
      cases isUnit : residual.findSome? unitLit? with
      | some l => exact ⟨residual, reduced, mem_of_unitLit? isUnit⟩
      | none =>
          cases isPure : if pureLiterals then pureLit? residual else none with
          | some l =>
              split at isPure
              · next allowed => exact ⟨allowed, residual, reduced, isPure⟩
              · cases isPure
          | none =>
              have nonePure : pureLiterals = true → pureLit? residual = none := by
                intro allowed
                rwa [if_pos allowed] at isPure
              cases flat : residual.flatten with
              | nil =>
                  cases residual with
                  | nil => exact reduced
                  | cons lits others =>
                      have isNil := List.flatten_eq_nil_iff.mp flat lits (by simp)
                      exact absurd isNil (ne_nil_of_mem_residual reduced (by simp))
              | cons l others => exact ⟨residual, reduced, by rw [flat]; rfl, isUnit, nonePure⟩

section Step

variable {clauses : List (List Lit)} {pureLiterals : Bool} {assignment next : Assignment}

theorem not_extendable_of_conflict
    (step : nextStep clauses pureLiterals assignment = .conflict) :
    ¬Extendable clauses assignment := by
  have describes := nextStep_describes clauses pureLiterals assignment
  rw [step] at describes
  exact not_extendable_of_reduce?_eq_none describes

theorem exists_true_of_satisfied
    (step : nextStep clauses pureLiterals assignment = .satisfied) :
    ∀ clause ∈ clauses, ∃ l ∈ clause, assignment.isTrue l = true := by
  have describes := nextStep_describes clauses pureLiterals assignment
  rw [step] at describes
  exact reduce?_eq_nil_iff.mp describes

theorem extendable_of_force {rule : Rule} {l : Lit}
    (step : nextStep clauses pureLiterals assignment = .force rule l)
    (assigned : assignment.assign l = .ok next) (extendable : Extendable clauses assignment) :
    Extendable clauses next := by
  have describes := nextStep_describes clauses pureLiterals assignment
  rw [step] at describes
  cases rule with
  | unit =>
      obtain ⟨residual, reduced, isUnit⟩ := describes
      exact extendable_of_unit reduced isUnit assigned extendable
  | pure =>
      obtain ⟨_, residual, reduced, found⟩ := describes
      exact extendable_of_pure reduced (pure_of_pureLit? found) assigned extendable

theorem unit_of_force {rule : Rule} {l : Lit}
    (step : nextStep clauses false assignment = .force rule l) :
    rule = .unit ∧ ∃ residual, reduce? assignment clauses = some residual ∧ [l] ∈ residual := by
  have describes := nextStep_describes clauses false assignment
  rw [step] at describes
  cases rule with
  | unit => exact ⟨rfl, describes⟩
  | pure => cases describes.1

end Step

/-! ## A run -/

/-- Literals that the rules force one after the other lead from an assignment to another. -/
inductive Forces (clauses : List (List Lit)) (pureLiterals : Bool) :
    Assignment → List (Rule × Lit) → Assignment → Prop
  | done {assignment : Assignment} : Forces clauses pureLiterals assignment [] assignment
  | force {assignment next final : Assignment} {rule : Rule} {l : Lit} {forced : List (Rule × Lit)}
      (step : nextStep clauses pureLiterals assignment = .force rule l)
      (assigned : assignment.assign l = .ok next)
      (rest : Forces clauses pureLiterals next forced final) :
      Forces clauses pureLiterals assignment ((rule, l) :: forced) final

def Propagation.step : Propagation → Step
  | .conflict => .conflict
  | .satisfied => .satisfied
  | .undecided l => .branch l

def Assignment.Extends (assignment start : Assignment) : Prop :=
  ∀ v polarity, start.value v = some polarity → assignment.value v = some polarity

def Progress.forceAll (progress : Progress) (forced : List (Rule × Lit)) : Progress :=
  forced.foldl (fun before f => before.force f.1 f.2) progress

theorem propagate_forces (clauses : List (List Lit)) (pureLiterals : Bool) (start : Assignment)
    (progress : Progress) :
    ∃ outcome final forced, Forces clauses pureLiterals start forced final ∧
      nextStep clauses pureLiterals final = outcome.step ∧
      propagate clauses pureLiterals start progress =
        .done (progress.forceAll forced) (outcome, final) := by
  fun_induction propagate clauses pureLiterals start progress with
  | case1 assignment progress step => exact ⟨.conflict, assignment, [], .done, step, rfl⟩
  | case2 assignment progress step => exact ⟨.satisfied, assignment, [], .done, step, rfl⟩
  | case3 assignment progress l step => exact ⟨.undecided l, assignment, [], .done, step, rfl⟩
  | case4 assignment progress rule l step next assigned inductionHypothesis =>
      obtain ⟨outcome, final, forced, rest, ends, run⟩ := inductionHypothesis
      exact ⟨outcome, final, (rule, l) :: forced, .force step assigned rest, ends, run⟩
  | case5 assignment progress rule l step fault assigned =>
      -- A forced literal is taken from the residual clauses, so its variable is open.
      have unbound := (open_of_nextStep (.inl ⟨rule, step⟩)).2
      obtain ⟨next, isAssigned⟩ := Assignment.assign_of_unbound unbound
      rw [isAssigned] at assigned
      cases assigned

theorem stats_forceAll (forced : List (Rule × Lit)) (progress : Progress) :
    (progress.forceAll forced).stats =
      { progress.stats with
        propagations := progress.stats.propagations + forced.countP fun f => f.1 == .unit
        pureLiterals := progress.stats.pureLiterals + forced.countP fun f => f.1 == .pure } := by
  induction forced generalizing progress with
  | nil => rfl
  | cons f rest inductionHypothesis =>
      obtain ⟨rule, l⟩ := f
      have first : progress.forceAll ((rule, l) :: rest) = (progress.force rule l).forceAll rest :=
        rfl
      rw [first, inductionHypothesis]
      cases rule with
      | unit => simp [Progress.force, Rule.count, Nat.add_assoc, Nat.add_comm 1]
      | pure => simp [Progress.force, Rule.count, Nat.add_assoc, Nat.add_comm 1]

theorem countP_rules (forced : List (Rule × Lit)) :
    (forced.countP fun f => f.1 == .unit) + (forced.countP fun f => f.1 == .pure) =
      forced.length := by
  induction forced with
  | nil => rfl
  | cons f rest inductionHypothesis =>
      obtain ⟨rule, l⟩ := f
      rw [List.countP_cons, List.countP_cons, List.length_cons]
      cases rule with
      | unit => simp; omega
      | pure => simp; omega

theorem Assignment.extends_assign {assignment next : Assignment} {l : Lit}
    (assigned : assignment.assign l = .ok next) : next.Extends assignment := by
  intro v polarity bound
  rw [value_assign assigned, if_neg ?_, bound]
  rintro rfl
  rw [unbound_of_assign assigned] at bound
  cases bound

theorem Assignment.perm_assign {assignment next : Assignment} {l : Lit}
    (assigned : assignment.assign l = .ok next) :
    next.trueLits.Perm (l :: assignment.trueLits) := by
  have absent : l ∉ assignment.trueLits := fun member =>
    value_eq_none_iff.mp (unbound_of_assign assigned) l member rfl
  refine (List.perm_ext_iff_of_nodup next.ascending.nodup
    (List.nodup_cons.mpr ⟨absent, assignment.ascending.nodup⟩)).mpr ?_
  intro m
  rw [mem_trueLits_assign assigned, List.mem_cons]

namespace Forces

variable {clauses : List (List Lit)} {pureLiterals : Bool} {start final : Assignment}
  {forced : List (Rule × Lit)}

theorem extends_start (forces : Forces clauses pureLiterals start forced final) :
    final.Extends start := by
  induction forces with
  | done => exact fun _ _ => id
  | force step assigned rest inductionHypothesis =>
      intro v polarity bound
      exact inductionHypothesis v polarity (Assignment.extends_assign assigned v polarity bound)

theorem perm_trueLits (forces : Forces clauses pureLiterals start forced final) :
    final.trueLits.Perm (forced.map Prod.snd ++ start.trueLits) := by
  induction forces with
  | done => exact List.Perm.refl _
  | @force assignment next final rule l forced step assigned rest inductionHypothesis =>
      have added := (Assignment.perm_assign assigned).append_left (forced.map Prod.snd)
      exact (inductionHypothesis.trans added).trans List.perm_middle

theorem open_of_mem (forces : Forces clauses pureLiterals start forced final) {f : Rule × Lit}
    (member : f ∈ forced) : f.2 ∈ clauses.flatten ∧ start.value f.2.var = none := by
  induction forces with
  | done => cases member
  | force step assigned rest inductionHypothesis =>
      rcases List.mem_cons.mp member with rfl | later
      · exact open_of_nextStep (.inl ⟨_, step⟩)
      · obtain ⟨occurs, unbound⟩ := inductionHypothesis later
        refine ⟨occurs, ?_⟩
        cases value : Assignment.value _ f.2.var with
        | none => rfl
        | some polarity =>
            rw [Assignment.extends_assign assigned _ _ value] at unbound
            cases unbound

theorem nodup_vars (forces : Forces clauses pureLiterals start forced final) :
    (forced.map fun f => f.2.var).Nodup := by
  induction forces with
  | done => exact List.nodup_nil
  | @force assignment next final rule l forced step assigned rest inductionHypothesis =>
      refine List.nodup_cons.mpr ⟨?_, inductionHypothesis⟩
      intro again
      obtain ⟨f, later, sameVar⟩ := List.mem_map.mp again
      have stillOpen := (rest.open_of_mem later).2
      rw [Assignment.value_assign assigned, if_pos sameVar] at stillOpen
      cases stillOpen

theorem mem_vars_iff (forces : Forces clauses pureLiterals start forced final) {v : Var} :
    (v ∈ forced.map fun f => f.2.var) ↔ (final.value v).isSome ∧ start.value v = none := by
  have perm := forces.perm_trueLits
  constructor
  · intro isForced
    obtain ⟨f, inForced, rfl⟩ := List.mem_map.mp isForced
    refine ⟨?_, (forces.open_of_mem inForced).2⟩
    have isBound : final.value f.2.var = some f.2.isPositive := by
      rw [← Assignment.mem_trueLits_iff_value, perm.mem_iff]
      exact List.mem_append_left _ (List.mem_map_of_mem inForced)
    rw [isBound]
    rfl
  · rintro ⟨bound, wasOpen⟩
    obtain ⟨polarity, hasValue⟩ := Option.isSome_iff_exists.mp bound
    have listed := perm.mem_iff.mp (Assignment.value_eq_some_iff.mp hasValue)
    rcases List.mem_append.mp listed with isForced | wasBound
    · obtain ⟨f, inForced, isLit⟩ := List.mem_map.mp isForced
      exact List.mem_map.mpr ⟨f, inForced, by rw [isLit, Lit.var_lit]⟩
    · rw [Assignment.value_eq_some_iff.mpr wasBound] at wasOpen
      cases wasOpen

theorem occurs_of_mem_vars (forces : Forces clauses pureLiterals start forced final) {v : Var}
    (isForced : v ∈ forced.map fun f => f.2.var) : ∃ l ∈ clauses.flatten, l.var = v := by
  obtain ⟨f, inForced, sameVar⟩ := List.mem_map.mp isForced
  exact ⟨f.2, (forces.open_of_mem inForced).1, sameVar⟩

theorem extendable (forces : Forces clauses pureLiterals start forced final)
    (extendable : Extendable clauses start) : Extendable clauses final := by
  induction forces with
  | done => exact extendable
  | force step assigned rest inductionHypothesis =>
      exact inductionHypothesis (extendable_of_force step assigned extendable)

end Forces

end Clausal
