import Clausal.Propagation

/-!
# Pure literals

A variable is pure in a list of literals if it occurs there with one polarity only.  Of the pure
variables of one polarity the smallest is taken (`pureWith?_eq_some_iff`), and a negative one only if
there is no positive one (`pureLit?_eq_negative_iff`).
-/

set_option autoImplicit false

namespace Clausal

section Ascending

variable {α : Type} {key : α → Nat} {xs ys : List α} {p : α → Bool}

/-- The first entry of an ascending list for which a condition holds has the smallest key. -/
theorem Ascending.find?_eq_some_iff (ascending : Ascending key xs) {x : α} :
    xs.find? p = some x ↔ (x ∈ xs ∧ p x = true) ∧ ∀ y ∈ xs, p y = true → key x ≤ key y := by
  induction xs with
  | nil => simp
  | cons first rest inductionHypothesis =>
      have ⟨below, restAscending⟩ := List.pairwise_cons.mp ascending
      by_cases holds : p first = true
      · rw [List.find?_cons_of_pos holds, Option.some_inj]
        constructor
        · rintro rfl
          refine ⟨⟨List.mem_cons_self, holds⟩, ?_⟩
          intro y member _
          rcases List.mem_cons.mp member with rfl | inRest
          · exact Nat.le_refl _
          · exact Nat.le_of_lt (below y inRest)
        · rintro ⟨⟨member, _⟩, least⟩
          rcases List.mem_cons.mp member with same | inRest
          · exact same.symm
          · have atMost := least first List.mem_cons_self holds
            have above := below x inRest
            omega
      · have notFirst : ∀ y, p y = true → (y ∈ first :: rest ↔ y ∈ rest) := by
          intro y holdsAt
          refine List.mem_cons.trans (or_iff_right ?_)
          rintro rfl
          exact holds holdsAt
        rw [List.find?_cons_of_neg holds, inductionHypothesis restAscending]
        constructor
        · rintro ⟨⟨member, holdsAt⟩, least⟩
          exact ⟨⟨(notFirst x holdsAt).mpr member, holdsAt⟩,
            fun y inList holdsY => least y ((notFirst y holdsY).mp inList) holdsY⟩
        · rintro ⟨⟨member, holdsAt⟩, least⟩
          exact ⟨⟨(notFirst x holdsAt).mp member, holdsAt⟩,
            fun y inRest => least y (List.mem_cons_of_mem _ inRest)⟩

/-- Entries for which the condition does not hold have no influence on the first one for which it
does. -/
theorem Ascending.find?_eq_find? (xsAscending : Ascending key xs) (ysAscending : Ascending key ys)
    (sameMembers : ∀ x, p x = true → (x ∈ xs ↔ x ∈ ys)) : xs.find? p = ys.find? p := by
  have sameFiltered : xs.filter p = ys.filter p := by
    refine eq_of_mem_iff (List.Pairwise.filter p xsAscending) (List.Pairwise.filter p ysAscending) ?_
    intro x
    rw [List.mem_filter, List.mem_filter, and_congr_left (sameMembers x)]
  rw [← List.head?_filter, sameFiltered, List.head?_filter]

end Ascending

def OccursOnly (lits : List Lit) (polarity : Bool) (v : Var) : Prop :=
  v.lit polarity ∈ lits ∧ v.lit (!polarity) ∉ lits

instance (lits : List Lit) (polarity : Bool) (v : Var) : Decidable (OccursOnly lits polarity v) :=
  inferInstanceAs (Decidable (_ ∧ _))

structure FirstOccursOnly (lits : List Lit) (polarity : Bool) (v : Var) : Prop where
  occursOnly : OccursOnly lits polarity v
  least : ∀ w, OccursOnly lits polarity w → v.index ≤ w.index

section Specification

variable {lits : List Lit} {polarity : Bool} {v : Var}

theorem pureWith?_eq :
    pureWith? lits polarity =
      ((variablesOfLits lits).find? fun v => decide (OccursOnly lits polarity v)).map
        (·.lit polarity) := by
  rw [pureWith?]
  congr 2
  funext v
  rw [Bool.eq_iff_iff, decide_eq_true_iff, OccursOnly]
  simp

theorem OccursOnly.mem_variablesOfLits (occursOnly : OccursOnly lits polarity v) :
    v ∈ variablesOfLits lits :=
  Clausal.mem_variablesOfLits.mpr ⟨v.lit polarity, occursOnly.1, Lit.var_lit v polarity⟩

theorem pureWith?_eq_none_iff :
    pureWith? lits polarity = none ↔ ∀ v, ¬OccursOnly lits polarity v := by
  rw [pureWith?_eq, Option.map_eq_none_iff, List.find?_eq_none]
  simp only [decide_eq_true_eq]
  exact ⟨fun noneOccurs v occursOnly => noneOccurs v occursOnly.mem_variablesOfLits occursOnly,
    fun noneOccurs v _ => noneOccurs v⟩

theorem pureWith?_eq_some_iff :
    pureWith? lits polarity = some (v.lit polarity) ↔ FirstOccursOnly lits polarity v := by
  have sameVar : ∀ w : Var, w.lit polarity = v.lit polarity ↔ w = v := by
    intro w
    refine ⟨fun sameLit => ?_, congrArg (Var.lit · polarity)⟩
    rw [← Lit.var_lit w polarity, sameLit, Lit.var_lit]
  have ascending : Ascending Var.index (variablesOfLits lits) := Ascending.ascending_ofList
  rw [pureWith?_eq, Option.map_eq_some_iff]
  simp only [sameVar, exists_eq_right, ascending.find?_eq_some_iff, decide_eq_true_eq]
  constructor
  · rintro ⟨⟨_, occursOnly⟩, least⟩
    exact ⟨occursOnly, fun w other => least w other.mem_variablesOfLits other⟩
  · rintro ⟨occursOnly, least⟩
    exact ⟨⟨occursOnly.mem_variablesOfLits, occursOnly⟩, fun w _ => least w⟩

theorem not_occursOnly_iff :
    ((∀ v, ¬OccursOnly lits true v) ∧ ∀ v, ¬OccursOnly lits false v) ↔
      ∀ l ∈ lits, l.var.positive ∈ lits ∧ l.var.negative ∈ lits := by
  constructor
  · rintro ⟨notPositiveOnly, notNegativeOnly⟩ l member
    rw [← Lit.lit_var_isPositive l] at member
    cases polarity : l.isPositive with
    | true =>
        rw [polarity] at member
        refine ⟨member, Decidable.byContradiction fun absent => ?_⟩
        exact notPositiveOnly l.var ⟨member, absent⟩
    | false =>
        rw [polarity] at member
        refine ⟨Decidable.byContradiction fun absent => ?_, member⟩
        exact notNegativeOnly l.var ⟨member, absent⟩
  · intro both
    refine ⟨fun v occursOnly => ?_, fun v occursOnly => ?_⟩
    · have negative := (both _ occursOnly.1).2
      rw [Lit.var_lit] at negative
      exact occursOnly.2 negative
    · have positive := (both _ occursOnly.1).1
      rw [Lit.var_lit] at positive
      exact occursOnly.2 positive

theorem occursOnly_of_pureWith? {l : Lit} (found : pureWith? lits polarity = some l) :
    l.isPositive = polarity ∧ OccursOnly lits polarity l.var := by
  rw [pureWith?_eq] at found
  obtain ⟨v, foundVar, rfl⟩ := Option.map_eq_some_iff.mp found
  have occursOnly := List.find?_some foundVar
  rw [decide_eq_true_eq] at occursOnly
  rw [Lit.isPositive_lit, Lit.var_lit]
  exact ⟨rfl, occursOnly⟩

theorem pureLit?_eq_positive_iff {residual : List (List Lit)} :
    pureLit? residual = some v.positive ↔ FirstOccursOnly residual.flatten true v := by
  rw [pureLit?, Option.or_eq_some_iff, Var.positive, pureWith?_eq_some_iff, or_iff_left]
  rintro ⟨_, found⟩
  have polarity := (occursOnly_of_pureWith? found).1
  rw [Lit.isPositive_lit] at polarity
  cases polarity

theorem pureLit?_eq_negative_iff {residual : List (List Lit)} :
    pureLit? residual = some v.negative ↔
      (∀ w, ¬OccursOnly residual.flatten true w) ∧ FirstOccursOnly residual.flatten false v := by
  rw [pureLit?, Option.or_eq_some_iff, Var.negative, pureWith?_eq_none_iff,
    pureWith?_eq_some_iff, or_iff_right]
  intro found
  have polarity := (occursOnly_of_pureWith? found).1
  rw [Lit.isPositive_lit] at polarity
  cases polarity

theorem pureLit?_eq_none_iff {residual : List (List Lit)} :
    pureLit? residual = none ↔ ∀ l ∈ residual.flatten,
      l.var.positive ∈ residual.flatten ∧ l.var.negative ∈ residual.flatten := by
  rw [pureLit?, Option.or_eq_none_iff, pureWith?_eq_none_iff, pureWith?_eq_none_iff,
    not_occursOnly_iff]

end Specification

end Clausal
