import Mathlib.Data.List.ProdSigma
import Clausal.Proofs.FirstOccurrences
import Clausal.Proofs.Resolvent

/-!
# Resolving on one variable

Clauses with a variable are resolved with clauses with its negation, pair by pair.  A pair gives a
resolvent exactly when it clashes on no other variable (`Opposed.resolve_eq`), and the resolvents of
all pairs are counted as often as they arise and listed once (`resolveOn_eq`).
-/

set_option autoImplicit false

namespace Clausal

/-- Two clauses clash on the pivot at most. -/
def ClashOnlyOn (pivot : Var) (a b : Clause) : Prop := ∀ l ∈ a, -l ∈ b → l.var = pivot

instance (pivot : Var) (a b : Clause) : Decidable (ClashOnlyOn pivot a b) :=
  inferInstanceAs (Decidable (∀ l ∈ a.lits, -l ∈ b.lits → l.var = pivot))

def generated (pivot : Var) (pairs : List (Clause × Clause)) : List Clause :=
  pairs.filterMap fun pair => (resolve pair.1 pair.2 pivot).toOption.join

/-- Clauses without tautologies, the first with the pivot and the second with its negation. -/
structure Opposed (pivot : Var) (a b : Clause) : Prop where
  leftProper : Proper a.lits
  rightProper : Proper b.lits
  inLeft : pivot.positive ∈ a
  inRight : -pivot.positive ∈ b

def Progress.resolvents (progress : Progress) (count : Nat) : Progress :=
  progress.count fun stats => { stats with resolvents := stats.resolvents + count }

namespace Opposed

variable {pivot : Var} {a b : Clause}

theorem var_ne_of_mem_joined (opposed : Opposed pivot a b) {l : Lit}
    (member : l ∈ joined a b pivot.positive) : l.var ≠ pivot := by
  have other := Clausal.var_ne_of_mem_joined opposed.leftProper opposed.rightProper
    opposed.inLeft opposed.inRight member
  rwa [Var.var_positive] at other

theorem mem_joined_iff (opposed : Opposed pivot a b) {l : Lit} :
    l ∈ joined a b pivot.positive ↔ (l ∈ a ∨ l ∈ b) ∧ l.var ≠ pivot := by
  constructor
  · intro member
    refine ⟨?_, opposed.var_ne_of_mem_joined member⟩
    exact (mem_joined.mp member).imp And.left And.left
  · rintro ⟨occurs, other⟩
    have notPositive : l ≠ pivot.positive := by
      rintro rfl
      exact other (Var.var_positive pivot)
    have notNegative : l ≠ -pivot.positive := by
      rintro rfl
      exact other (by rw [Lit.var_negate, Var.var_positive])
    exact mem_joined.mpr (occurs.imp (⟨·, notPositive⟩) (⟨·, notNegative⟩))

theorem proper_joined_iff (opposed : Opposed pivot a b) :
    Proper (joined a b pivot.positive).lits ↔ ClashOnlyOn pivot a b := by
  constructor
  · intro proper l inLeft inRight
    by_contra other
    refine proper l (opposed.mem_joined_iff.mpr ⟨.inl inLeft, other⟩) ?_
    exact opposed.mem_joined_iff.mpr ⟨.inr inRight, by rwa [Lit.var_negate]⟩
  · intro clashOnly l member negatedMember
    obtain ⟨occurs, other⟩ := opposed.mem_joined_iff.mp member
    rcases occurs, (opposed.mem_joined_iff.mp negatedMember).1 with
      ⟨inLeft | inRight, negatedInLeft | negatedInRight⟩
    · exact opposed.leftProper l inLeft negatedInLeft
    · exact other (clashOnly l inLeft negatedInRight)
    · refine other ?_
      rw [← Lit.var_negate]
      exact clashOnly (-l) negatedInLeft (by rwa [Lit.negate_negate])
    · exact opposed.rightProper l inRight negatedInRight

theorem resolve_eq (opposed : Opposed pivot a b) :
    resolve a b pivot =
      .ok (if ClashOnlyOn pivot a b then some (joined a b pivot.positive) else none) := by
  have answer := resolve_of_mem opposed.leftProper opposed.inLeft opposed.inRight
  rw [Var.var_positive] at answer
  simpa only [← opposed.proper_joined_iff] using answer

end Opposed

section Pairs

variable {pivot : Var} {pairs : List (Clause × Clause)}

theorem resolvePairs_eq
    (resolvable : ∀ pair ∈ pairs, ∃ answer, resolve pair.1 pair.2 pivot = .ok answer)
    (progress : Progress) :
    resolvePairs pivot pairs progress =
      .done (progress.resolvents (generated pivot pairs).length) (generated pivot pairs) := by
  fun_induction resolvePairs pivot pairs progress with
  | case1 => rfl
  | case2 a b rest progress fault stopped =>
      obtain ⟨answer, resolved⟩ := resolvable (a, b) (by simp)
      rw [stopped] at resolved
      cases resolved
  | case3 a b rest progress resolved inductionHypothesis =>
      have passedOver : generated pivot ((a, b) :: rest) = generated pivot rest := by
        simp [generated, resolved, Except.toOption]
      rw [passedOver, inductionHypothesis fun pair member => resolvable pair (by simp [member])]
  | case4 a b rest progress resolvent resolved inductionHypothesis =>
      have comesFirst :
          generated pivot ((a, b) :: rest) = resolvent :: generated pivot rest := by
        simp [generated, resolved, Except.toOption]
      rw [comesFirst, inductionHypothesis fun pair member => resolvable pair (by simp [member])]
      simp only [Run.map, Run.done, Except.map, Progress.resolvents, Progress.resolvent,
        Progress.count, List.length_cons, Nat.add_assoc, Nat.add_comm 1]

variable (opposed : ∀ pair ∈ pairs, Opposed pivot pair.1 pair.2)
include opposed

theorem generated_eq :
    generated pivot pairs = (pairs.filter fun pair => ClashOnlyOn pivot pair.1 pair.2).map
      fun pair => joined pair.1 pair.2 pivot.positive := by
  induction pairs with
  | nil => rfl
  | cons pair rest inductionHypothesis =>
      have restEq := inductionHypothesis fun other member => opposed other (by simp [member])
      have resolved := (opposed pair (by simp)).resolve_eq
      by_cases clashOnly : ClashOnlyOn pivot pair.1 pair.2
      · rw [if_pos clashOnly] at resolved
        rw [List.filter_cons_of_pos (by simpa using clashOnly), List.map_cons, ← restEq]
        simp [generated, resolved, Except.toOption]
      · rw [if_neg clashOnly] at resolved
        rw [List.filter_cons_of_neg (by simpa using clashOnly), ← restEq]
        simp [generated, resolved, Except.toOption]

theorem length_generated :
    (generated pivot pairs).length = pairs.countP fun pair => ClashOnlyOn pivot pair.1 pair.2 := by
  rw [generated_eq opposed, List.length_map, List.countP_eq_length_filter]

theorem mem_generated_iff {c : Clause} :
    c ∈ generated pivot pairs ↔ ∃ pair ∈ pairs,
      ClashOnlyOn pivot pair.1 pair.2 ∧ c = joined pair.1 pair.2 pivot.positive := by
  rw [generated_eq opposed, List.mem_map]
  simp only [List.mem_filter, decide_eq_true_eq, and_assoc, @eq_comm _ c]

end Pairs

theorem resolveOn_eq {positive negative : List Clause} {pivot : Var}
    (opposed : ∀ pair ∈ positive ×ˢ negative, Opposed pivot pair.1 pair.2) (progress : Progress) :
    resolveOn positive negative pivot progress =
      .done (progress.resolvents ((positive ×ˢ negative).countP fun pair =>
        ClashOnlyOn pivot pair.1 pair.2)) (generated pivot (positive ×ˢ negative)).eraseDups := by
  have resolvable : ∀ pair ∈ positive ×ˢ negative,
      ∃ answer, resolve pair.1 pair.2 pivot = .ok answer :=
    fun pair member => ⟨_, (opposed pair member).resolve_eq⟩
  have run := resolvePairs_eq resolvable progress
  rw [length_generated opposed] at run
  change (resolvePairs pivot (positive ×ˢ negative) progress).map List.eraseDups = _
  rw [run]
  rfl

end Clausal
