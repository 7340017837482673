import Clausal.Proofs.ResolutionCompleteness
import Clausal.Saturation

/-!
# Saturation decides satisfiability

A round resolves all pairs that clash: it derives the empty clause, or it knows every resolvent
afterwards (`known_of_added`).  Rounds add only what the clauses entail, so the empty clause
refutes them; when a round adds nothing the clauses are closed under resolution and have a model.
-/

set_option autoImplicit false

namespace Clausal

def Clash.resolvent (clash : Clash) : Except Fault (Option Clause) :=
  resolve clash.left clash.right clash.pivot

/-! ## The clashes of a list -/

theorem mem_clashesBetween {a b : Clause} {clash : Clash} :
    clash ∈ clashesBetween a b ↔ ∃ l ∈ a, -l ∈ b ∧ clash = ⟨a, b, l.var⟩ := by
  constructor
  · intro between
    obtain ⟨l, kept, same⟩ := List.mem_map.mp between
    obtain ⟨inLeft, inRight⟩ := List.mem_filter.mp kept
    exact ⟨l, inLeft, Clause.contains_iff_mem.mp inRight, same.symm⟩
  · rintro ⟨l, inLeft, inRight, same⟩
    have kept : l ∈ a.lits.filter fun m => b.contains (-m) :=
      List.mem_filter.mpr ⟨inLeft, Clause.contains_iff_mem.mpr inRight⟩
    exact List.mem_map.mpr ⟨l, kept, same.symm⟩

theorem exists_lit_of_mem_clashes {clauses : List Clause} {clash : Clash}
    (member : clash ∈ clashes clauses) :
    ∃ l ∈ clash.left, -l ∈ clash.right ∧ l.var = clash.pivot := by
  induction clauses with
  | nil => cases member
  | cons a rest inductionHypothesis =>
      rw [clashes, List.mem_append] at member
      rcases member with here | later
      · obtain ⟨b, _, between⟩ := List.mem_flatMap.mp here
        obtain ⟨l, inLeft, inRight, same⟩ := mem_clashesBetween.mp between
        subst same
        exact ⟨l, inLeft, inRight, rfl⟩
      · exact inductionHypothesis later

/-- Two different clauses that clash are resolved in one order or the other. -/
theorem mem_clashes_or_mem_clashes {clauses : List Clause} {a b : Clause} {l : Lit}
    (aIn : a ∈ clauses) (bIn : b ∈ clauses) (different : a ≠ b) (inLeft : l ∈ a)
    (inRight : -l ∈ b) :
    ⟨a, b, l.var⟩ ∈ clashes clauses ∨ ⟨b, a, l.var⟩ ∈ clashes clauses := by
  induction clauses with
  | nil => cases aIn
  | cons c rest inductionHypothesis =>
      simp only [clashes, List.mem_append, List.mem_flatMap]
      rcases List.mem_cons.mp aIn with aHead | aTail
      · subst aHead
        have bTail := (List.mem_cons.mp bIn).resolve_left (Ne.symm different)
        exact .inl (.inl ⟨b, bTail, mem_clashesBetween.mpr ⟨l, inLeft, inRight, rfl⟩⟩)
      · rcases List.mem_cons.mp bIn with bHead | bTail
        · subst bHead
          refine .inr (.inl ⟨a, aTail, mem_clashesBetween.mpr ⟨-l, inRight, ?_, ?_⟩⟩)
          · rwa [Lit.negate_negate]
          · rw [Lit.var_negate]
        · rcases inductionHypothesis aTail bTail with forward | backward
          · exact .inl (.inr forward)
          · exact .inr (.inr backward)

/-! ## One round -/

section Round

variable {present todo added after : List Clause} {clashing : List Clash} {progress : Progress}

theorem exists_round (resolvable : ∀ clash ∈ clashing, ∃ answer, clash.resolvent = .ok answer) :
    ∃ round, (resolveClashes present clashing added progress).result = .ok round := by
  fun_induction resolveClashes present clashing added progress with
  | case1 => exact ⟨_, rfl⟩
  | case2 clash rest added progress fault stopped =>
      obtain ⟨answer, resolved⟩ := resolvable clash (by simp)
      rw [Clash.resolvent, stopped] at resolved
      cases resolved
  | case4 => exact ⟨_, rfl⟩
  | case3 clash rest added progress resolved inductionHypothesis
  | case5 clash rest added progress resolvent resolved notEmpty known inductionHypothesis
  | case6 clash rest added progress resolvent resolved notEmpty unknown inductionHypothesis =>
      exact inductionHypothesis fun other member => resolvable other (by simp [member])

theorem exists_empty_resolvent
    (run : (resolveClashes present clashing added progress).result = .ok .refuted) :
    ∃ clash ∈ clashing, clash.resolvent = .ok (some Clause.empty) := by
  fun_induction resolveClashes present clashing added progress with
  | case1 => simp [Run.done] at run
  | case2 => cases run
  | case4 clash rest added progress resolvent resolved isEmpty =>
      have noLits : resolvent = Clause.empty := Clause.ext_lits (List.isEmpty_iff.mp isEmpty)
      exact ⟨clash, by simp, by rw [Clash.resolvent, resolved, noLits]⟩
  | case3 clash rest added progress resolved inductionHypothesis
  | case5 clash rest added progress resolvent resolved notEmpty known inductionHypothesis
  | case6 clash rest added progress resolvent resolved notEmpty unknown inductionHypothesis =>
      obtain ⟨other, member, derived⟩ := inductionHypothesis run
      exact ⟨other, by simp [member], derived⟩

theorem mem_of_mem_added
    (run : (resolveClashes present clashing added progress).result = .ok (.added after)) :
    ∀ c ∈ added, c ∈ after := by
  fun_induction resolveClashes present clashing added progress with
  | case1 =>
      cases run
      exact fun c member => member
  | case2 => cases run
  | case4 => simp [Run.done] at run
  | case3 clash rest added progress resolved inductionHypothesis
  | case5 clash rest added progress resolvent resolved notEmpty known inductionHypothesis =>
      exact inductionHypothesis run
  | case6 clash rest added progress resolvent resolved notEmpty unknown inductionHypothesis =>
      intro c member
      exact inductionHypothesis run c (by simp [member])

theorem known_of_added
    (run : (resolveClashes present clashing added progress).result = .ok (.added after)) :
    ∀ clash ∈ clashing, ∀ resolvent, clash.resolvent = .ok (some resolvent) →
      resolvent ∈ present ∨ resolvent ∈ after := by
  fun_induction resolveClashes present clashing added progress with
  | case1 => simp
  | case2 => cases run
  | case4 => simp [Run.done] at run
  | case3 clash rest added progress resolved inductionHypothesis =>
      intro other member resolvent derived
      rcases List.mem_cons.mp member with head | tail
      · rw [head, Clash.resolvent, resolved] at derived
        cases derived
      · exact inductionHypothesis run other tail resolvent derived
  | case5 clash rest added progress found resolved notEmpty known inductionHypothesis =>
      intro other member resolvent derived
      rcases List.mem_cons.mp member with head | tail
      · rw [head, Clash.resolvent, resolved] at derived
        cases derived
        rw [Bool.or_eq_true, List.contains_iff_mem, List.contains_iff_mem] at known
        exact known.imp_right (mem_of_mem_added run found)
      · exact inductionHypothesis run other tail resolvent derived
  | case6 clash rest added progress found resolved notEmpty unknown inductionHypothesis =>
      intro other member resolvent derived
      rcases List.mem_cons.mp member with head | tail
      · rw [head, Clash.resolvent, resolved] at derived
        cases derived
        exact .inr (mem_of_mem_added run found (by simp))
      · exact inductionHypothesis run other tail resolvent derived

theorem origin_of_added
    (run : (resolveClashes present clashing added progress).result = .ok (.added after)) :
    ∀ c ∈ after, c ∈ added ∨
      (c ≠ Clause.empty ∧ ∃ clash ∈ clashing, clash.resolvent = .ok (some c)) := by
  fun_induction resolveClashes present clashing added progress with
  | case1 =>
      cases run
      exact fun c member => .inl member
  | case2 => cases run
  | case4 => simp [Run.done] at run
  | case3 clash rest added progress resolved inductionHypothesis
  | case5 clash rest added progress resolvent resolved notEmpty known inductionHypothesis =>
      intro c member
      rcases inductionHypothesis run c member with old | ⟨nonempty, other, inRest, derived⟩
      · exact .inl old
      · exact .inr ⟨nonempty, other, by simp [inRest], derived⟩
  | case6 clash rest added progress resolvent resolved notEmpty unknown inductionHypothesis =>
      intro c member
      rcases inductionHypothesis run c member with old | ⟨nonempty, other, inRest, derived⟩
      · rcases List.mem_append.mp old with before | isNew
        · exact .inl before
        · have same : c = resolvent := by simpa using isNew
          subst same
          refine .inr ⟨?_, clash, by simp, resolved⟩
          rintro rfl
          exact notEmpty rfl
      · exact .inr ⟨nonempty, other, by simp [inRest], derived⟩

end Round

/-! ## All rounds -/

structure RoundStart (clauses : List Clause) : Prop where
  proper : ∀ c ∈ clauses, Proper c.lits
  noEmpty : Clause.empty ∉ clauses

section Rounds

variable {clauses new : List Clause} {progress : Progress}

theorem exists_joined_of_clash (proper : ∀ c ∈ clauses, Proper c.lits) {clash : Clash}
    (member : clash ∈ clashes clauses) {c : Clause} (derived : clash.resolvent = .ok (some c)) :
    ∃ a ∈ clauses, ∃ b ∈ clauses, ∃ l, c = joined a b l ∧ Proper c.lits := by
  obtain ⟨leftIn, rightIn⟩ := mem_of_mem_clashes member
  obtain ⟨l, _, _, _, isJoined, isProper⟩ :=
    eq_joined_of_resolve (proper clash.left leftIn) derived
  exact ⟨clash.left, leftIn, clash.right, rightIn, l, isJoined, isProper⟩

/-- The resolvent of two clauses that clash is the resolvent of one of the clashes, whichever of the
two clauses comes first. -/
theorem exists_clash_of_joined (proper : ∀ c ∈ clauses, Proper c.lits) {a b : Clause}
    (aIn : a ∈ clauses) (bIn : b ∈ clauses) {l : Lit} (inLeft : l ∈ a) (inRight : -l ∈ b)
    (isProper : Proper (joined a b l).lits) :
    ∃ clash ∈ clashes clauses, clash.resolvent = .ok (some (joined a b l)) := by
  have different : a ≠ b := by
    rintro rfl
    exact proper a aIn l inLeft inRight
  rcases mem_clashes_or_mem_clashes aIn bIn different inLeft inRight with forward | backward
  · refine ⟨_, forward, ?_⟩
    rw [Clash.resolvent, resolve_of_mem (proper a aIn) inLeft inRight, if_pos isProper]
  · refine ⟨_, backward, ?_⟩
    have inA : - -l ∈ a := by rwa [Lit.negate_negate]
    rw [← joined_comm] at isProper ⊢
    rw [Clash.resolvent, ← Lit.var_negate, resolve_of_mem (proper b bIn) inRight inA,
      if_pos isProper]

theorem RoundStart.exists_round (start : RoundStart clauses) :
    ∃ round, (resolveClashes clauses (clashes clauses) [] progress).result = .ok round := by
  refine Clausal.exists_round ?_
  intro clash member
  obtain ⟨leftIn, _⟩ := mem_of_mem_clashes member
  obtain ⟨l, inLeft, inRight, sameVar⟩ := exists_lit_of_mem_clashes member
  rw [Clash.resolvent, ← sameVar, resolve_of_mem (start.proper clash.left leftIn) inLeft inRight]
  exact ⟨_, rfl⟩

theorem models_joined {valuation : Valuation}
    (models : Valuation.Models valuation (clauses.map Clause.lits)) {a b : Clause}
    (aIn : a ∈ clauses) (bIn : b ∈ clauses) (l : Lit) :
    Valuation.Satisfies valuation (joined a b l).lits :=
  satisfies_joined (models a.lits (List.mem_map_of_mem aIn))
    (models b.lits (List.mem_map_of_mem bIn))

theorem RoundStart.not_satisfiable (start : RoundStart clauses)
    (run : (resolveClashes clauses (clashes clauses) [] progress).result = .ok .refuted) :
    ¬Satisfiable (clauses.map Clause.lits) := by
  rintro ⟨valuation, models⟩
  obtain ⟨clash, member, derived⟩ := exists_empty_resolvent run
  obtain ⟨a, aIn, b, bIn, l, isJoined, _⟩ := exists_joined_of_clash start.proper member derived
  obtain ⟨m, inEmpty, _⟩ := models_joined models aIn bIn l
  rw [← isJoined] at inEmpty
  cases inEmpty

theorem RoundStart.append (start : RoundStart clauses)
    (run : (resolveClashes clauses (clashes clauses) [] progress).result = .ok (.added new)) :
    RoundStart (clauses ++ new) where
  proper c member := by
    rcases List.mem_append.mp member with old | isNew
    · exact start.proper c old
    · rcases origin_of_added run c isNew with impossible | ⟨_, clash, inClashes, derived⟩
      · cases impossible
      · obtain ⟨_, _, _, _, _, _, isProper⟩ :=
          exists_joined_of_clash start.proper inClashes derived
        exact isProper
  noEmpty member := by
    rcases List.mem_append.mp member with old | isNew
    · exact start.noEmpty old
    · rcases origin_of_added run Clause.empty isNew with impossible | ⟨nonempty, _⟩
      · cases impossible
      · exact nonempty rfl

theorem RoundStart.models_append (start : RoundStart clauses)
    (run : (resolveClashes clauses (clashes clauses) [] progress).result = .ok (.added new))
    {valuation : Valuation} (models : Valuation.Models valuation (clauses.map Clause.lits)) :
    Valuation.Models valuation ((clauses ++ new).map Clause.lits) := by
  simp only [Valuation.Models, List.forall_mem_map]
  intro c member
  rcases List.mem_append.mp member with old | isNew
  · exact models c.lits (List.mem_map_of_mem old)
  · rcases origin_of_added run c isNew with impossible | ⟨_, clash, inClashes, derived⟩
    · cases impossible
    · obtain ⟨a, aIn, b, bIn, l, isJoined, _⟩ :=
        exists_joined_of_clash start.proper inClashes derived
      rw [isJoined]
      exact models_joined models aIn bIn l

theorem RoundStart.closed (start : RoundStart clauses)
    (run : (resolveClashes clauses (clashes clauses) [] progress).result = .ok (.added [])) :
    Closed clauses := by
  intro a aIn b bIn l inLeft inRight isProper
  obtain ⟨clash, member, derived⟩ :=
    exists_clash_of_joined start.proper aIn bIn inLeft inRight isProper
  rcases known_of_added run clash member _ derived with old | isNew
  · exact old
  · cases isNew

/-- What saturation answers: a refutation, or a closed list with the clauses it started from. -/
def Saturated (clauses : List Clause) : Saturation → Prop
  | .refuted => ¬Satisfiable (clauses.map Clause.lits)
  | .closed closure => (∀ c ∈ clauses, c ∈ closure) ∧ RoundStart closure ∧ Closed closure

theorem saturated_of_saturateFrom (start : RoundStart clauses) :
    ∃ outcome, (saturateFrom clauses progress).result = .ok outcome ∧
      Saturated clauses outcome := by
  fun_induction saturateFrom clauses progress with
  | case1 clauses progress after fault derived =>
      obtain ⟨round, run⟩ := @RoundStart.exists_round clauses progress.round start
      rw [derived] at run
      cases run
  | case2 clauses progress after derived =>
      exact ⟨.refuted, rfl, start.not_satisfiable (by rw [derived])⟩
  | case3 clauses progress after derived =>
      exact ⟨.closed clauses, rfl, fun c member => member, start, start.closed (by rw [derived])⟩
  | case4 clauses progress after first others derived inductionHypothesis =>
      have run : (resolveClashes clauses (clashes clauses) [] progress.round).result =
          .ok (.added (first :: others)) := by rw [derived]
      obtain ⟨outcome, answered, saturated⟩ := inductionHypothesis (start.append run)
      refine ⟨outcome, answered, ?_⟩
      cases outcome with
      | refuted =>
          rintro ⟨valuation, models⟩
          exact saturated ⟨valuation, start.models_append run models⟩
      | closed closure =>
          obtain ⟨kept, rest⟩ := saturated
          exact ⟨fun c member => kept c (by simp [member]), rest⟩

theorem saturated_of_saturate (proper : ∀ c ∈ clauses, Proper c.lits) (progress : Progress) :
    ∃ outcome, (saturate clauses progress).result = .ok outcome ∧ Saturated clauses outcome := by
  by_cases anyEmpty : clauses.eraseDups.any Clause.isEmpty = true
  · refine ⟨.refuted, by rw [saturate, if_pos anyEmpty]; rfl, ?_⟩
    obtain ⟨c, isDistinct, isEmpty⟩ := List.any_eq_true.mp anyEmpty
    have member : c.lits ∈ clauses.map Clause.lits :=
      List.mem_map_of_mem (List.mem_eraseDups.mp isDistinct)
    rw [List.isEmpty_iff.mp isEmpty] at member
    exact not_satisfiable_of_nil_mem member
  · have start : RoundStart clauses.eraseDups := by
      constructor
      · intro c member
        exact proper c (List.mem_eraseDups.mp member)
      · intro member
        exact anyEmpty (List.any_eq_true.mpr ⟨Clause.empty, member, rfl⟩)
    obtain ⟨outcome, answered, saturated⟩ := saturated_of_saturateFrom start
    refine ⟨outcome, by rw [saturate, if_neg anyEmpty]; exact answered, ?_⟩
    cases outcome with
    | refuted =>
        rintro ⟨valuation, models⟩
        refine saturated ⟨valuation, ?_⟩
        simp only [Valuation.Models, List.forall_mem_map] at models ⊢
        intro c member
        exact models c (List.mem_eraseDups.mp member)
    | closed closure =>
        obtain ⟨kept, rest⟩ := saturated
        exact ⟨fun c member => kept c (List.mem_eraseDups.mpr member), rest⟩

/-- A closed list that saturation answers has a model in common with the clauses. -/
theorem Saturated.exists_model {closure : List Clause}
    (saturated : Saturated clauses (.closed closure)) :
    ∃ valuation : Valuation, Valuation.Models valuation (clauses.map Clause.lits) ∧
      Valuation.Models valuation (closure.map Clause.lits) := by
  obtain ⟨kept, start, closed⟩ := saturated
  obtain ⟨valuation, models⟩ := exists_model_of_closed closed start.proper start.noEmpty
  refine ⟨valuation, ?_, models⟩
  simp only [Valuation.Models, List.forall_mem_map] at models ⊢
  intro c member
  exact models c (kept c member)

/-- Saturation is complete for refutation: it refutes exactly the clauses without a model. -/
theorem saturate_refuted_iff (clauses : List Clause) (proper : ∀ c ∈ clauses, Proper c.lits)
    (progress : Progress) :
    ∃ outcome, (saturate clauses progress).result = .ok outcome ∧
      (outcome = .refuted ↔ ¬Satisfiable (clauses.map Clause.lits)) ∧
      ∀ closure, outcome = .closed closure →
        ∃ valuation : Valuation, Valuation.Models valuation (clauses.map Clause.lits) ∧
          Valuation.Models valuation (closure.map Clause.lits) := by
  obtain ⟨outcome, answered, saturated⟩ := saturated_of_saturate proper progress
  refine ⟨outcome, answered, ?_⟩
  cases outcome with
  | refuted =>
      refine ⟨⟨fun _ => saturated, fun _ => rfl⟩, ?_⟩
      intro closure different
      cases different
  | closed closure =>
      obtain ⟨valuation, models, closureModels⟩ := saturated.exists_model
      refine ⟨⟨Saturation.noConfusion, fun none => absurd ⟨valuation, models⟩ none⟩, ?_⟩
      rintro _ ⟨rfl⟩
      exact ⟨valuation, models, closureModels⟩

end Rounds

/-- A repeated clause is kept once and the three others are refuted. -/
theorem saturate_repeated_clause :
    let x : Var := ⟨0, by decide⟩
    let y : Var := ⟨1, by decide⟩
    let clauses := [Clause.ofList [x.positive, y.positive], .ofList [x.negative, y.positive],
      .ofList [x.positive, y.positive], .ofList [y.negative]]
    (∀ c ∈ clauses, Proper c.lits) ∧ (saturate clauses {}).result = .ok .refuted := by
  intro x y clauses
  have proper : ∀ c ∈ clauses, Proper c.lits := by decide
  obtain ⟨outcome, answered, refutedIff, _⟩ := saturate_refuted_iff clauses proper {}
  refine ⟨proper, answered.trans (congrArg Except.ok (refutedIff.mpr ?_))⟩
  rintro ⟨valuation, models⟩
  simp only [clauses, List.map_cons, List.map_nil, Valuation.Models, List.forall_mem_cons,
    satisfies_ofList] at models
  obtain ⟨first, second, _, third, _⟩ := models
  simp only [Valuation.Satisfies, Lit.Holds, Var.positive, Var.negative, List.mem_cons,
    List.not_mem_nil, or_false, exists_eq_or_imp, exists_eq_left, Lit.var_lit,
    Lit.isPositive_lit] at first second third
  have yFalse : ¬valuation y = true := by simp [third]
  have xTrue := first.resolve_right yFalse
  have xFalse := second.resolve_right yFalse
  rw [xTrue] at xFalse
  cases xFalse

end Clausal
