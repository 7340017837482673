import Mathlib.Data.List.Destutter
import Clausal.Clause

/-!
# Clauses as sets of literals

The literals of a clause are what sorting a list by code and dropping equal neighbours leaves
(`lits_ofList_eq`).  Because they ascend strictly, a search by halves finds every literal of the
clause (`binSearchContains_iff`), and both literals of a variable are neighbours.  So lists with
the same literals, and only these, have the same clause (`ofList_canonical`).
-/

set_option autoImplicit false

namespace Clausal

namespace Ascending

/-! ## Search by halves -/

section Search

variable {α : Type} {key : α → Nat} {xs : Array α}

theorem lt_of_key_lt (ascending : Ascending key xs.toList) {index other : Nat}
    (inside : index < xs.size) (otherInside : other < xs.size)
    (below : key xs[index] < key xs[other]) : index < other := by
  apply Nat.lt_of_not_le
  intro atMost
  rcases Nat.lt_or_eq_of_le atMost with later | same
  · have above := List.pairwise_iff_getElem.mp ascending other index
      (by simpa using otherInside) (by simpa using inside) later
    rw [Array.getElem_toList, Array.getElem_toList] at above
    omega
  · subst same
    omega

/-- Halving finds a key between two places exactly when it stands there. -/
theorem binSearchAux_iff (ascending : Ascending key xs.toList) (wanted : α)
    (low : Fin (xs.size + 1)) (high : Fin xs.size) (ordered : low.val ≤ high.val) :
    Array.binSearchAux (fun x y => decide (key x < key y)) Option.isSome xs wanted low high
        ordered = true ↔
      ∃ index, ∃ inside : index < xs.size,
        low.val ≤ index ∧ index ≤ high.val ∧ key xs[index] = key wanted := by
  fun_induction Array.binSearchAux (fun x y => decide (key x < key y)) Option.isSome xs wanted
    low high ordered with
  | case1 low high ordered middle entry below more _ inductionHypothesis =>
      -- The entry in the middle is too small, so the key can only stand after it.
      rw [inductionHypothesis]
      constructor
      · rintro ⟨index, inside, after, atMost, found⟩
        have middleBefore : middle + 1 ≤ index := after
        exact ⟨index, inside, by omega, atMost, found⟩
      · rintro ⟨index, inside, _, atMost, found⟩
        have after := ascending.lt_of_key_lt (by omega) inside
          (found ▸ of_decide_eq_true below)
        exact ⟨index, inside, after, atMost, found⟩
  | case2 low high ordered middle entry below last =>
      refine iff_of_false (by simp) ?_
      rintro ⟨index, inside, _, atMost, found⟩
      have after := ascending.lt_of_key_lt (by omega) inside
        (found ▸ of_decide_eq_true below)
      omega
  | case3 low high ordered middle entry _ above first =>
      refine iff_of_false (by simp) ?_
      rintro ⟨index, inside, atLeast, _, found⟩
      have before := ascending.lt_of_key_lt inside (by omega)
        (found ▸ of_decide_eq_true above)
      omega
  | case4 low high ordered middle entry _ above more _ inductionHypothesis =>
      -- It is too large, so the key can only stand before it.
      rw [inductionHypothesis]
      constructor
      · rintro ⟨index, inside, atLeast, before, found⟩
        have middleAfter : index ≤ middle - 1 := before
        exact ⟨index, inside, atLeast, by omega, found⟩
      · rintro ⟨index, inside, atLeast, _, found⟩
        have before := ascending.lt_of_key_lt inside (by omega)
          (found ▸ of_decide_eq_true above)
        exact ⟨index, inside, atLeast, Nat.le_sub_one_of_lt before, found⟩
  | case5 low high ordered middle entry notBelow notAbove =>
      rw [decide_eq_true_eq] at notBelow notAbove
      refine iff_of_true rfl ⟨middle, by omega, by omega, by omega, ?_⟩
      exact Nat.le_antisymm (Nat.le_of_not_lt notAbove) (Nat.le_of_not_lt notBelow)

theorem binSearchContains_iff (ascending : Ascending key xs.toList) (wanted : α) :
    xs.binSearchContains wanted (fun x y => decide (key x < key y)) = true ↔
      ∃ x ∈ xs, key x = key wanted := by
  rw [Array.exists_mem_iff_exists_getElem, Array.binSearchContains]
  split
  · next nonempty =>
      dsimp only
      rw [dif_pos (Nat.zero_le _), binSearchAux_iff ascending]
      have last : xs.size - 1 = if xs.size - 1 < xs.size then xs.size - 1 else xs.size - 1 :=
        (ite_self _).symm
      refine exists_congr fun index => exists_congr fun inside => ?_
      constructor
      · rintro ⟨_, _, found⟩
        exact found
      · intro found
        have atMost := Nat.le_sub_one_of_lt inside
        exact ⟨Nat.zero_le index, Nat.le_trans atMost (Nat.le_of_eq last), found⟩
  · next empty =>
      refine iff_of_false (by simp) ?_
      rintro ⟨index, inside, _⟩
      omega

end Search

end Ascending

/-! ## Clauses -/

namespace Clause

theorem lits_ofList_eq (lits : List Lit) :
    (ofList lits).lits =
      (lits.mergeSort fun l m => decide (l.code ≤ m.code)).destutter (· ≠ ·) := by
  have sorted : (lits.mergeSort fun l m => decide (l.code ≤ m.code)).Pairwise
      fun l m => l.code ≤ m.code := by
    refine (List.pairwise_mergeSort ?_ ?_ lits).imp of_decide_eq_true
    · intro l m n lm mn
      exact decide_eq_true (Nat.le_trans (of_decide_eq_true lm) (of_decide_eq_true mn))
    · intro l m
      rw [Bool.or_eq_true, decide_eq_true_eq, decide_eq_true_eq]
      exact Nat.le_total l.code m.code
  have antisymm : Std.Antisymm fun l m : Lit => l.code ≤ m.code :=
    ⟨fun l m lm ml => Lit.ext_code (Nat.le_antisymm lm ml)⟩
  rw [sorted.destutter_eq_dedup]
  refine Ascending.eq_of_mem_iff (ofList lits).ascending ?_ ?_
  · refine ((sorted.sublist (List.dedup_sublist _)).and (List.nodup_dedup _)).imp ?_
    rintro l m ⟨atMost, different⟩
    exact Nat.lt_of_le_of_ne atMost fun sameCode => different (Lit.ext_code sameCode)
  · intro l
    rw [mem_lits, mem_ofList, List.mem_dedup, List.mem_mergeSort]

/-- A clause holds the literals of its list, whatever their order and repetitions. -/
theorem ofList_eq_iff {xs ys : List Lit} : ofList xs = ofList ys ↔ ∀ l, l ∈ xs ↔ l ∈ ys := by
  constructor
  · intro same l
    rw [← mem_ofList, same, mem_ofList]
  · intro sameLits
    apply ext_lits
    refine Ascending.eq_of_mem_iff (ofList xs).ascending (ofList ys).ascending ?_
    intro l
    rw [mem_lits, mem_ofList, mem_lits, mem_ofList, sameLits]

theorem binSearchContains_eq (clause : Clause) (l : Lit) :
    clause.lits.toArray.binSearchContains l (fun m n => decide (m.code < n.code)) =
      clause.contains l := by
  rw [Bool.eq_iff_iff, clause.ascending.binSearchContains_iff, contains_iff_mem]
  constructor
  · rintro ⟨m, member, sameCode⟩
    rw [← Lit.ext_code sameCode]
    exact List.mem_toArray.mp member
  · intro member
    exact ⟨l, List.mem_toArray.mpr member, rfl⟩

theorem exists_negate_mem_iff {lits : List Lit} :
    (∃ l ∈ lits, -l ∈ lits) ↔ ∃ v : Var, v.positive ∈ lits ∧ v.negative ∈ lits := by
  constructor
  · rintro ⟨l, member, negated⟩
    refine ⟨l.var, ?_⟩
    rw [Var.negative_eq]
    rcases Lit.eq_or_eq_negate (Var.var_positive l.var) with same | opposite
    · rw [same]
      exact ⟨member, negated⟩
    · rw [opposite, Lit.negate_negate]
      exact ⟨negated, member⟩
  · rintro ⟨v, positive, negative⟩
    rw [Var.negative_eq] at negative
    exact ⟨v.positive, positive, negative⟩

/-- Two lists have the same clause exactly when they hold the same literals.  The clause keeps the
literals of its list strictly ascending by code, as sorting and dropping equal neighbours leaves
them.  It contains just the literals of the list, and a search by halves finds the same.  It is a
tautology exactly when a variable occurs in the list with both polarities. -/
theorem ofList_canonical (xs ys : List Lit) :
    (ofList xs = ofList ys ↔ ∀ l, l ∈ xs ↔ l ∈ ys) ∧
    (ofList xs).lits =
      (xs.mergeSort fun l m => decide (l.code ≤ m.code)).destutter (· ≠ ·) ∧
    (ofList xs).lits.Pairwise (fun l m => l.code < m.code) ∧
    (∀ l, l ∈ (ofList xs).lits ↔ l ∈ xs) ∧
    (∀ l, (ofList xs).contains l = true ↔ l ∈ xs) ∧
    (∀ l, (ofList xs).lits.toArray.binSearchContains l (fun m n => decide (m.code < n.code)) =
      (ofList xs).contains l) ∧
    ((ofList xs).isTautology = true ↔ ∃ v : Var, v.positive ∈ xs ∧ v.negative ∈ xs) := by
  refine ⟨ofList_eq_iff, lits_ofList_eq xs, (ofList xs).ascending, fun l => mem_ofList, ?_,
    (ofList xs).binSearchContains_eq, ?_⟩
  · intro l
    rw [contains_iff_mem, mem_ofList]
  · rw [isTautology_iff, ← exists_negate_mem_iff]
    simp only [mem_ofList]

end Clause

end Clausal
