import Mathlib.Data.List.Nodup
import Mathlib.Data.Set.Basic
import Mathlib.Order.Bounds.Basic
import Clausal.Proofs.FirstOccurrences
import Clausal.Proofs.Refutation

/-!
# Resolution levels

Level zero of a list of clauses are its members, and every further level adds the resolvents of all
pairs of clauses of the level before.  A round of saturation leads from one level to the next
(`AtLevel.mem_append_iff`), or finds the empty clause in it.  So saturation refutes the clauses in
the first level that holds the empty clause, and otherwise ends with the first level that is not
larger than the one before (`saturate_levels`).
-/

set_option autoImplicit false

namespace Clausal

/-- The clause has the literals of `a` and `b` but for two that clash, and is no tautology. -/
def IsResolvent (a b c : Clause) : Prop :=
  Proper c.lits ∧ ∃ l ∈ a, -l ∈ b ∧ ∀ m, m ∈ c ↔ (m ∈ a ∧ m ≠ l) ∨ (m ∈ b ∧ m ≠ -l)

/-- The clauses that resolution derives from a list in at most so many steps. -/
def level (clauses : List Clause) : Nat → Set Clause
  | 0 => {c | c ∈ clauses}
  | k + 1 => level clauses k ∪
      {c | ∃ a ∈ level clauses k, ∃ b ∈ level clauses k, IsResolvent a b c}

theorem isResolvent_iff {a b c : Clause} :
    IsResolvent a b c ↔ Proper c.lits ∧ ∃ l ∈ a, -l ∈ b ∧ c = joined a b l := by
  have sameLits : ∀ l, (∀ m, m ∈ c ↔ (m ∈ a ∧ m ≠ l) ∨ (m ∈ b ∧ m ≠ -l)) ↔ c = joined a b l := by
    intro l
    constructor
    · intro members
      apply Clause.ext_lits
      refine Ascending.eq_of_mem_iff c.ascending (joined a b l).ascending ?_
      intro m
      rw [Clause.mem_lits, Clause.mem_lits, members, mem_joined]
    · rintro rfl m
      exact mem_joined
  simp only [IsResolvent, sameLits]

/-! ## The levels of a list -/

section Level

variable {clauses : List Clause}

theorem mem_level_zero {c : Clause} : c ∈ level clauses 0 ↔ c ∈ clauses := Iff.rfl

theorem mem_level_succ {k : Nat} {c : Clause} :
    c ∈ level clauses (k + 1) ↔ c ∈ level clauses k ∨
      ∃ a ∈ level clauses k, ∃ b ∈ level clauses k, IsResolvent a b c := Iff.rfl

theorem level_mono {j k : Nat} (earlier : j ≤ k) {c : Clause} (member : c ∈ level clauses j) :
    c ∈ level clauses k := by
  induction earlier with
  | refl => exact member
  | step _ inductionHypothesis => exact .inl inductionHypothesis

theorem level_congr {other : List Clause} (sameMembers : ∀ c, c ∈ other ↔ c ∈ clauses) (k : Nat) :
    level other k = level clauses k := by
  induction k with
  | zero => exact Set.ext sameMembers
  | succ k inductionHypothesis => rw [level, level, inductionHypothesis]

theorem proper_of_mem_level (proper : ∀ c ∈ clauses, Proper c.lits) {k : Nat} {c : Clause}
    (member : c ∈ level clauses k) : Proper c.lits := by
  induction k with
  | zero => exact proper c member
  | succ k inductionHypothesis =>
      rcases mem_level_succ.mp member with old | ⟨_, _, _, _, isProper, _⟩
      · exact inductionHypothesis old
      · exact isProper

/-- A level that is not larger than the one before is the last one. -/
theorem level_eq_of_stable {k : Nat} (stable : level clauses (k + 1) = level clauses k) {n : Nat}
    (later : k ≤ n) : level clauses n = level clauses k := by
  induction n, later using Nat.le_induction with
  | base => rfl
  | succ n _ inductionHypothesis => rw [level, inductionHypothesis, ← level, stable]

theorem mem_level_iff_of_stable {k : Nat} (stable : level clauses (k + 1) = level clauses k)
    {c : Clause} : (∃ n, c ∈ level clauses n) ↔ c ∈ level clauses k := by
  constructor
  · rintro ⟨n, member⟩
    rcases Nat.le_total n k with earlier | later
    · exact level_mono earlier member
    · rwa [level_eq_of_stable stable later] at member
  · intro member
    exact ⟨k, member⟩

end Level

/-! ## One round -/

section Round

variable {present clauses added after new : List Clause} {clashing : List Clash}
  {progress : Progress} {k : Nat}

theorem saturationRounds_resolveClashes :
    (resolveClashes present clashing added progress).progress.stats.saturationRounds =
      progress.stats.saturationRounds := by
  fun_induction resolveClashes present clashing added progress with
  | case1 | case2 | case4 => rfl
  | case3 clash rest added progress resolved inductionHypothesis
  | case5 clash rest added progress resolvent resolved notEmpty known inductionHypothesis
  | case6 clash rest added progress resolvent resolved notEmpty unknown inductionHypothesis =>
      exact inductionHypothesis

theorem nodup_append_of_added
    (run : (resolveClashes present clashing added progress).result = .ok (.added after))
    (distinct : (present ++ added).Nodup) : (present ++ after).Nodup := by
  fun_induction resolveClashes present clashing added progress with
  | case1 =>
      cases run
      exact distinct
  | case2 => cases run
  | case4 => simp [Run.done] at run
  | case3 clash rest added progress resolved inductionHypothesis
  | case5 clash rest added progress resolvent resolved notEmpty known inductionHypothesis =>
      exact inductionHypothesis run distinct
  | case6 clash rest added progress resolvent resolved notEmpty unknown inductionHypothesis =>
      refine inductionHypothesis run ?_
      simp only [Bool.or_eq_true, List.contains_iff_mem, ← List.mem_append] at unknown
      rw [← List.append_assoc, ← List.concat_eq_append]
      exact List.Nodup.concat unknown distinct

/-- What holds at the start of a round: the list is a level, and all levels before were smaller. -/
structure AtLevel (clauses : List Clause) (k : Nat) (present : List Clause) : Prop where
  start : RoundStart present
  mem_iff : ∀ c, c ∈ present ↔ c ∈ level clauses k
  distinct : present.Nodup
  begins : clauses.eraseDups <+: present
  grew : ∀ j < k, level clauses (j + 1) ≠ level clauses j

theorem isResolvent_of_clash (start : RoundStart present) {clash : Clash}
    (member : clash ∈ clashes present) {c : Clause} (derived : clash.resolvent = .ok (some c)) :
    ∃ a ∈ present, ∃ b ∈ present, IsResolvent a b c := by
  obtain ⟨leftIn, rightIn⟩ := mem_of_mem_clashes member
  obtain ⟨l, inLeft, inRight, _, isJoined, isProper⟩ :=
    eq_joined_of_resolve (start.proper clash.left leftIn) derived
  exact ⟨clash.left, leftIn, clash.right, rightIn,
    isResolvent_iff.mpr ⟨isProper, l, inLeft, inRight, isJoined⟩⟩

theorem exists_clash_of_isResolvent (start : RoundStart present) {a b c : Clause}
    (aIn : a ∈ present) (bIn : b ∈ present) (resolvent : IsResolvent a b c) :
    ∃ clash ∈ clashes present, clash.resolvent = .ok (some c) := by
  obtain ⟨isProper, l, inLeft, inRight, isJoined⟩ := isResolvent_iff.mp resolvent
  subst isJoined
  exact exists_clash_of_joined start.proper aIn bIn inLeft inRight isProper

theorem AtLevel.mem_succ_of_clash (atLevel : AtLevel clauses k present) {clash : Clash}
    (member : clash ∈ clashes present) {c : Clause} (derived : clash.resolvent = .ok (some c)) :
    c ∈ level clauses (k + 1) := by
  obtain ⟨a, aIn, b, bIn, resolvent⟩ := isResolvent_of_clash atLevel.start member derived
  exact .inr ⟨a, (atLevel.mem_iff a).mp aIn, b, (atLevel.mem_iff b).mp bIn, resolvent⟩

theorem AtLevel.empty_mem_succ (atLevel : AtLevel clauses k present)
    (run : (resolveClashes present (clashes present) [] progress).result = .ok .refuted) :
    Clause.empty ∈ level clauses (k + 1) := by
  obtain ⟨clash, member, derived⟩ := exists_empty_resolvent run
  exact atLevel.mem_succ_of_clash member derived

theorem AtLevel.mem_append_iff (atLevel : AtLevel clauses k present)
    (run : (resolveClashes present (clashes present) [] progress).result = .ok (.added new))
    (c : Clause) : c ∈ present ++ new ↔ c ∈ level clauses (k + 1) := by
  rw [List.mem_append]
  constructor
  · rintro (old | isNew)
    · exact level_mono (Nat.le_succ k) ((atLevel.mem_iff c).mp old)
    · rcases origin_of_added run c isNew with impossible | ⟨_, clash, member, derived⟩
      · cases impossible
      · exact atLevel.mem_succ_of_clash member derived
  · intro member
    rcases mem_level_succ.mp member with old | ⟨a, aIn, b, bIn, resolvent⟩
    · exact .inl ((atLevel.mem_iff c).mpr old)
    · obtain ⟨clash, inClashes, derived⟩ := exists_clash_of_isResolvent atLevel.start
        ((atLevel.mem_iff a).mpr aIn) ((atLevel.mem_iff b).mpr bIn) resolvent
      exact known_of_added run clash inClashes c derived

theorem AtLevel.succ (atLevel : AtLevel clauses k present)
    (run : (resolveClashes present (clashes present) [] progress).result = .ok (.added new))
    (nonempty : new ≠ []) : AtLevel clauses (k + 1) (present ++ new) where
  start := atLevel.start.append run
  mem_iff := atLevel.mem_append_iff run
  distinct := nodup_append_of_added run (by simpa using atLevel.distinct)
  begins := atLevel.begins.trans (List.prefix_append present new)
  grew := by
    intro j before
    rcases Nat.lt_succ_iff_lt_or_eq.mp before with earlier | isLast
    · exact atLevel.grew j earlier
    · subst isLast
      intro stable
      obtain ⟨c, isNew⟩ := List.exists_mem_of_ne_nil new nonempty
      have inLevel := (atLevel.mem_append_iff run c).mp (List.mem_append_right _ isNew)
      rw [stable] at inLevel
      have distinct := nodup_append_of_added run (by simpa using atLevel.distinct)
      exact List.disjoint_of_nodup_append distinct ((atLevel.mem_iff c).mpr inLevel) isNew

/-- A round that adds nothing starts from the last level. -/
theorem AtLevel.stable (atLevel : AtLevel clauses k present)
    (run : (resolveClashes present (clashes present) [] progress).result = .ok (.added [])) :
    level clauses (k + 1) = level clauses k := by
  ext c
  rw [← atLevel.mem_append_iff run, List.append_nil, atLevel.mem_iff]

end Round

/-! ## All rounds -/

/-- A list that holds all levels, of which so many rounds have made the last one. -/
structure ClosedAt (clauses : List Clause) (rounds : Nat) (closure : List Clause) : Prop where
  distinct : closure.Nodup
  begins : clauses.eraseDups <+: closure
  noEmpty : Clause.empty ∉ closure
  mem_iff : ∀ c, c ∈ closure ↔ ∃ k, c ∈ level clauses k
  least : IsLeast {k | 1 ≤ k ∧ level clauses k = level clauses (k - 1)} rounds

def SaturatedAt (clauses : List Clause) (rounds : Nat) : Saturation → Prop
  | .refuted => IsLeast {k | Clause.empty ∈ level clauses k} rounds
  | .closed closure => ClosedAt clauses rounds closure

def Saturation.Agrees : Saturation → Saturation → Prop
  | .refuted, .refuted => True
  | .closed closure, .closed other => closure.Perm other
  | _, _ => False

section Rounds

variable {clauses present : List Clause} {k : Nat} {progress : Progress}

theorem AtLevel.saturatedAt_refuted (atLevel : AtLevel clauses k present)
    (found : Clause.empty ∈ level clauses (k + 1)) : SaturatedAt clauses (k + 1) .refuted := by
  refine ⟨found, ?_⟩
  intro j inLevel
  by_contra earlier
  have inPresent : Clause.empty ∈ level clauses k :=
    level_mono (Nat.le_of_lt_succ (Nat.lt_of_not_le earlier)) inLevel
  exact atLevel.start.noEmpty ((atLevel.mem_iff _).mpr inPresent)

theorem AtLevel.saturatedAt_closed (atLevel : AtLevel clauses k present)
    (stable : level clauses (k + 1) = level clauses k) :
    SaturatedAt clauses (k + 1) (.closed present) := by
  refine ⟨atLevel.distinct, atLevel.begins, atLevel.start.noEmpty, ?_, ⟨⟨by omega, stable⟩, ?_⟩⟩
  · intro c
    rw [mem_level_iff_of_stable stable, atLevel.mem_iff]
  · rintro j ⟨positive, same⟩
    by_contra earlier
    refine atLevel.grew (j - 1) (by omega) ?_
    rwa [Nat.sub_add_cancel positive]

theorem saturatedAt_of_saturateFrom (atLevel : AtLevel clauses k present) :
    ∃ outcome rounds, (saturateFrom present progress).result = .ok outcome ∧
      (saturateFrom present progress).progress.stats.saturationRounds =
        progress.stats.saturationRounds + rounds ∧
      SaturatedAt clauses (k + rounds) outcome := by
  fun_induction saturateFrom present progress generalizing k with
  | case1 present progress after fault derived =>
      obtain ⟨round, run⟩ := @RoundStart.exists_round present progress.round atLevel.start
      rw [derived] at run
      cases run
  | case2 present progress after derived =>
      have counted := @saturationRounds_resolveClashes present [] (clashes present) progress.round
      rw [derived] at counted
      exact ⟨.refuted, 1, rfl, counted,
        atLevel.saturatedAt_refuted (atLevel.empty_mem_succ (by rw [derived]))⟩
  | case3 present progress after derived =>
      have counted := @saturationRounds_resolveClashes present [] (clashes present) progress.round
      rw [derived] at counted
      exact ⟨.closed present, 1, rfl, counted,
        atLevel.saturatedAt_closed (atLevel.stable (by rw [derived]))⟩
  | case4 present progress after first others derived inductionHypothesis =>
      have counted := @saturationRounds_resolveClashes present [] (clashes present) progress.round
      have run : (resolveClashes present (clashes present) [] progress.round).result =
          .ok (.added (first :: others)) := by rw [derived]
      rw [derived] at counted
      obtain ⟨outcome, rounds, answered, countedLater, saturated⟩ :=
        inductionHypothesis (atLevel.succ run (by simp))
      refine ⟨outcome, 1 + rounds, answered, ?_, ?_⟩
      · rw [countedLater, ← Nat.add_assoc]
        exact congrArg (· + rounds) counted
      · rwa [← Nat.add_assoc]

theorem atLevel_zero (proper : ∀ c ∈ clauses, Proper c.lits)
    (noEmpty : ¬clauses.eraseDups.any Clause.isEmpty = true) :
    AtLevel clauses 0 clauses.eraseDups where
  start := by
    constructor
    · intro c member
      exact proper c (List.mem_eraseDups.mp member)
    · intro member
      exact noEmpty (List.any_eq_true.mpr ⟨Clause.empty, member, rfl⟩)
  mem_iff c := List.mem_eraseDups
  distinct := nodup_eraseDups clauses
  begins := List.prefix_rfl
  grew j before := absurd before (Nat.not_lt_zero j)

theorem saturatedAt_of_saturate (proper : ∀ c ∈ clauses, Proper c.lits) (progress : Progress) :
    ∃ outcome rounds, (saturate clauses progress).result = .ok outcome ∧
      (saturate clauses progress).progress.stats.saturationRounds =
        progress.stats.saturationRounds + rounds ∧
      SaturatedAt clauses rounds outcome := by
  by_cases anyEmpty : clauses.eraseDups.any Clause.isEmpty = true
  · rw [saturate, if_pos anyEmpty]
    obtain ⟨c, isDistinct, isEmpty⟩ := List.any_eq_true.mp anyEmpty
    have noLits : c = Clause.empty := Clause.ext_lits (List.isEmpty_iff.mp isEmpty)
    have inInput : Clause.empty ∈ level clauses 0 := noLits ▸ List.mem_eraseDups.mp isDistinct
    exact ⟨.refuted, 0, rfl, rfl, inInput, fun k _ => Nat.zero_le k⟩
  · rw [saturate, if_neg anyEmpty]
    obtain ⟨outcome, rounds, answered, counted, saturated⟩ :=
      saturatedAt_of_saturateFrom (atLevel_zero proper anyEmpty)
    rw [Nat.zero_add] at saturated
    exact ⟨outcome, rounds, answered, counted, saturated⟩

theorem SaturatedAt.refuted_iff {rounds : Nat} {outcome : Saturation}
    (saturated : SaturatedAt clauses rounds outcome) :
    outcome = .refuted ↔ ∃ k, Clause.empty ∈ level clauses k := by
  cases outcome with
  | refuted => exact ⟨fun _ => ⟨rounds, saturated.1⟩, fun _ => rfl⟩
  | closed closure =>
      constructor
      · exact Saturation.noConfusion
      · intro derived
        exact absurd ((saturated.mem_iff Clause.empty).mpr derived) saturated.noEmpty

/-- Lists with the same levels saturate alike. -/
theorem SaturatedAt.agrees {other : List Clause} (sameLevels : level other = level clauses)
    {rounds otherRounds : Nat} {outcome otherOutcome : Saturation}
    (saturated : SaturatedAt clauses rounds outcome)
    (otherSaturated : SaturatedAt other otherRounds otherOutcome) :
    outcome.Agrees otherOutcome ∧ otherRounds = rounds := by
  have sameKind : otherOutcome = .refuted ↔ outcome = .refuted := by
    rw [saturated.refuted_iff, otherSaturated.refuted_iff, sameLevels]
  cases outcome with
  | refuted =>
      obtain rfl := sameKind.mpr rfl
      rw [SaturatedAt, sameLevels] at otherSaturated
      exact ⟨trivial, otherSaturated.unique saturated⟩
  | closed closure =>
      cases otherOutcome with
      | refuted => cases sameKind.mp rfl
      | closed otherClosure =>
          have otherMembers := otherSaturated.mem_iff
          have otherLeast := otherSaturated.least
          rw [sameLevels] at otherMembers otherLeast
          refine ⟨(List.perm_ext_iff_of_nodup saturated.distinct otherSaturated.distinct).mpr ?_,
            otherLeast.unique saturated.least⟩
          intro c
          rw [saturated.mem_iff, otherMembers]

end Rounds

/-- Saturation computes the levels of its clauses and never resolves clauses that do not clash.  It
refutes them if some level holds the empty clause, after as many rounds as the first such level
has; else it answers the distinct clauses in their order followed by the others of all levels, after
as many rounds as the first level has that adds nothing.  The order and repetition of the clauses
make no difference but for the order of the answer. -/
theorem saturate_levels (clauses : List Clause) (proper : ∀ c ∈ clauses, Proper c.lits)
    (progress : Progress) :
    ∃ outcome rounds, (saturate clauses progress).result = .ok outcome ∧
      (saturate clauses progress).progress.stats.saturationRounds =
        progress.stats.saturationRounds + rounds ∧
      (outcome = .refuted ↔ ∃ k, Clause.empty ∈ level clauses k) ∧
      (outcome = .refuted → IsLeast {k | Clause.empty ∈ level clauses k} rounds) ∧
      (∀ closure, outcome = .closed closure → closure.Nodup ∧ clauses.eraseDups <+: closure ∧
        (∀ c, c ∈ closure ↔ ∃ k, c ∈ level clauses k) ∧
        IsLeast {k | 1 ≤ k ∧ level clauses k = level clauses (k - 1)} rounds) ∧
      (∀ k, ∀ a ∈ level clauses k, ∀ b ∈ level clauses k, ∀ l ∈ a, -l ∈ b →
        ∃ answer, resolve a b l.var = .ok answer) ∧
      ∀ other : List Clause, (∀ c, c ∈ other ↔ c ∈ clauses) → ∀ start : Progress,
        ∃ otherOutcome, (saturate other start).result = .ok otherOutcome ∧
          outcome.Agrees otherOutcome ∧
          (saturate other start).progress.stats.saturationRounds =
            start.stats.saturationRounds + rounds := by
  obtain ⟨outcome, rounds, answered, counted, saturated⟩ := saturatedAt_of_saturate proper progress
  refine ⟨outcome, rounds, answered, counted, saturated.refuted_iff, ?_, ?_, ?_, ?_⟩
  · rintro rfl
    exact saturated
  · rintro closure rfl
    exact ⟨saturated.distinct, saturated.begins, saturated.mem_iff, saturated.least⟩
  · intro k a aIn b _ l inLeft inRight
    exact ⟨_, resolve_of_mem (proper_of_mem_level proper aIn) inLeft inRight⟩
  · intro other sameMembers start
    have otherProper : ∀ c ∈ other, Proper c.lits := fun c member =>
      proper c ((sameMembers c).mp member)
    obtain ⟨otherOutcome, otherRounds, otherAnswered, otherCounted, otherSaturated⟩ :=
      saturatedAt_of_saturate otherProper start
    obtain ⟨agrees, sameRounds⟩ :=
      saturated.agrees (funext (level_congr sameMembers)) otherSaturated
    subst sameRounds
    exact ⟨otherOutcome, otherAnswered, agrees, otherCounted⟩

/-- Three clauses over two variables, one of them repeated, of which the second level is the first
to hold the empty clause. -/
theorem saturate_levels_two_rounds :
    let x : Var := ⟨0, by decide⟩
    let y : Var := ⟨1, by decide⟩
    let clauses := [Clause.ofList [x.positive, y.positive], .ofList [x.negative, y.positive],
      .ofList [x.positive, y.positive], .ofList [y.negative]]
    (∀ c ∈ clauses, Proper c.lits) ∧ (saturate clauses {}).result = .ok .refuted ∧
      (saturate clauses {}).progress.stats.saturationRounds = 2 := by
  intro x y clauses
  have proper : ∀ c ∈ clauses, Proper c.lits := by decide
  have unitInFirst : Clause.ofList [y.positive] ∈ level clauses 1 := by
    refine mem_level_succ.mpr (.inr ⟨Clause.ofList [x.positive, y.positive], ?_,
      Clause.ofList [x.negative, y.positive], ?_, ?_⟩)
    · exact mem_level_zero.mpr (by decide)
    · exact mem_level_zero.mpr (by decide)
    · exact isResolvent_iff.mpr ⟨by decide, x.positive, by decide, by decide, by decide⟩
  have emptyInSecond : Clause.empty ∈ level clauses 2 := by
    refine mem_level_succ.mpr (.inr ⟨Clause.ofList [y.positive], unitInFirst,
      Clause.ofList [y.negative], ?_, ?_⟩)
    · exact level_mono (Nat.zero_le 1) (mem_level_zero.mpr (by decide))
    · exact isResolvent_iff.mpr ⟨by decide, y.positive, by decide, by decide, by decide⟩
  have notInFirst : Clause.empty ∉ level clauses 1 := by
    have noneEmpty : ∀ a ∈ clauses, ∀ b ∈ clauses, ∀ l ∈ a.lits, -l ∈ b.lits →
        joined a b l ≠ Clause.empty := by decide
    intro inFirst
    rcases mem_level_succ.mp inFirst with given | ⟨a, aIn, b, bIn, resolvent⟩
    · exact absurd (mem_level_zero.mp given) (by decide)
    · obtain ⟨_, l, inLeft, inRight, isJoined⟩ := isResolvent_iff.mp resolvent
      exact noneEmpty a aIn b bIn l inLeft inRight isJoined.symm
  obtain ⟨outcome, rounds, answered, counted, refutedIff, leastLevel, _⟩ :=
    saturate_levels clauses proper {}
  obtain rfl := refutedIff.mpr ⟨2, emptyInSecond⟩
  obtain ⟨inLevel, isLeast⟩ := leastLevel rfl
  have atMostTwo : rounds ≤ 2 := isLeast emptyInSecond
  have moreThanOne : 1 < rounds := by
    by_contra atMostOne
    exact notInFirst (level_mono (Nat.le_of_not_lt atMostOne) inLevel)
  have isTwo : rounds = 2 := by omega
  refine ⟨proper, answered, ?_⟩
  rw [counted, isTwo]

end Clausal
