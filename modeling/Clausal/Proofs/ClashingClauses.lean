import Clausal.Proofs.ClauseSets
import Clausal.Proofs.PivotResolvents

/-!
# Resolvents of clashing clauses

Two clauses clash on a variable that occurs in them with opposite polarities.  Which of them holds
the variable itself does not matter, so neither does their order (`resolve_comm`).  They have no
resolvent when they clash on a second variable, and otherwise the one with all their literals but
those of the variable (`resolve_of_clash`).
-/

set_option autoImplicit false

namespace Clausal

theorem Lit.var_ne_iff {l : Lit} {v : Var} : l.var ≠ v ↔ l ≠ v.positive ∧ l ≠ v.negative := by
  rw [Var.negative_eq, ← not_or, not_iff_not]
  constructor
  · intro sameVar
    exact Lit.eq_or_eq_negate (sameVar.trans (Var.var_positive v).symm)
  · rintro (rfl | rfl)
    · exact Var.var_positive v
    · rw [Lit.var_negate, Var.var_positive]

variable {v pivot : Var} {a b : Clause}

def ClashesOn (v : Var) (a b : Clause) : Prop :=
  (v.positive ∈ a ∧ v.negative ∈ b) ∨ (v.negative ∈ a ∧ v.positive ∈ b)

instance (v : Var) (a b : Clause) : Decidable (ClashesOn v a b) :=
  inferInstanceAs (Decidable ((_ ∧ _) ∨ (_ ∧ _)))

theorem clashesOn_comm : ClashesOn v a b ↔ ClashesOn v b a := by
  rw [ClashesOn, ClashesOn, or_comm, and_comm, and_comm (a := v.positive ∈ a)]

theorem clashesOn_iff : ClashesOn v a b ↔ ∃ l ∈ a, -l ∈ b ∧ l.var = v := by
  rw [ClashesOn, Var.negative_eq]
  constructor
  · rintro (⟨inLeft, inRight⟩ | ⟨inLeft, inRight⟩)
    · exact ⟨v.positive, inLeft, inRight, Var.var_positive v⟩
    · refine ⟨-v.positive, inLeft, ?_, ?_⟩
      · rwa [Lit.negate_negate]
      · rw [Lit.var_negate, Var.var_positive]
  · rintro ⟨l, inLeft, inRight, sameVar⟩
    rw [← Var.var_positive v] at sameVar
    rcases Lit.eq_or_eq_negate sameVar with rfl | rfl
    · exact .inl ⟨inLeft, inRight⟩
    · rw [Lit.negate_negate] at inRight
      exact .inr ⟨inLeft, inRight⟩

theorem not_clashOnlyOn_iff : ¬ClashOnlyOn pivot a b ↔ ∃ v, v ≠ pivot ∧ ClashesOn v a b := by
  simp only [ClashOnlyOn, clashesOn_iff, not_forall, exists_prop]
  constructor
  · rintro ⟨l, inLeft, inRight, other⟩
    exact ⟨l.var, other, l, inLeft, inRight, rfl⟩
  · rintro ⟨v, other, l, inLeft, inRight, rfl⟩
    exact ⟨l, inLeft, inRight, other⟩

theorem clashOnlyOn_comm : ClashOnlyOn pivot a b ↔ ClashOnlyOn pivot b a := by
  rw [← not_iff_not, not_clashOnlyOn_iff, not_clashOnlyOn_iff]
  simp only [clashesOn_comm]

def unionWithout (pivot : Var) (a b : Clause) : Clause :=
  .ofList ((a.lits ++ b.lits).filter fun l => decide (l.var ≠ pivot))

theorem mem_unionWithout {l : Lit} :
    l ∈ unionWithout pivot a b ↔ (l ∈ a ∨ l ∈ b) ∧ l.var ≠ pivot := by
  simp only [unionWithout, Clause.mem_ofList, List.mem_filter, List.mem_append, Clause.mem_lits,
    decide_eq_true_eq]

theorem unionWithout_comm : unionWithout pivot a b = unionWithout pivot b a := by
  refine Clause.ofList_eq_iff.mpr fun l => ?_
  simp only [List.mem_filter, List.mem_append, or_comm]

theorem Opposed.joined_eq (opposed : Opposed pivot a b) :
    joined a b pivot.positive = unionWithout pivot a b := by
  apply Clause.ext_lits
  refine Ascending.eq_of_mem_iff (joined a b _).ascending (unionWithout pivot a b).ascending ?_
  intro l
  rw [Clause.mem_lits, Clause.mem_lits, opposed.mem_joined_iff, mem_unionWithout]

section Proper

variable (leftProper : Proper a.lits) (rightProper : Proper b.lits) (clash : ClashesOn pivot a b)
include leftProper rightProper clash

theorem resolve_comm : resolve a b pivot = resolve b a pivot := by
  obtain ⟨l, inLeft, inRight, rfl⟩ := clashesOn_iff.mp clash
  have swapped := resolve_of_mem rightProper inRight (by rwa [Lit.negate_negate])
  rw [Lit.var_negate, joined_comm] at swapped
  rw [swapped, resolve_of_mem leftProper inLeft inRight]

theorem resolve_of_clash :
    resolve a b pivot =
      .ok (if ClashOnlyOn pivot a b then some (unionWithout pivot a b) else none) := by
  have swapped := resolve_comm leftProper rightProper clash
  rw [ClashesOn, Var.negative_eq] at clash
  rcases clash with ⟨inLeft, inRight⟩ | ⟨inLeft, inRight⟩
  · have opposed : Opposed pivot a b := ⟨leftProper, rightProper, inLeft, inRight⟩
    rw [opposed.resolve_eq, opposed.joined_eq]
  · have opposed : Opposed pivot b a := ⟨rightProper, leftProper, inRight, inLeft⟩
    rw [swapped, opposed.resolve_eq, opposed.joined_eq, unionWithout_comm]
    simp only [clashOnlyOn_comm]

theorem proper_unionWithout (clashOnly : ClashOnlyOn pivot a b) :
    Proper (unionWithout pivot a b).lits := by
  have resolved := resolve_of_clash leftProper rightProper clash
  rw [if_pos clashOnly] at resolved
  obtain ⟨_, _, _, _, _, proper⟩ := eq_joined_of_resolve leftProper resolved
  exact proper

end Proper

/-- Clauses without tautologies that clash on a variable are resolved on it to the same answer in
both orders.  They have no resolvent exactly when they clash on another variable.  If they have
one, its literals ascend strictly by code, no two of them are each other's negation, and they are
those of both clauses but the two literals of the variable. -/
theorem resolve_clashing {a b : Clause} {pivot : Var} (leftProper : Proper a.lits)
    (rightProper : Proper b.lits) (clash : ClashesOn pivot a b) :
    resolve a b pivot = resolve b a pivot ∧
    (resolve a b pivot = .ok none ↔ ∃ v, v ≠ pivot ∧ ClashesOn v a b) ∧
    ((¬∃ v, v ≠ pivot ∧ ClashesOn v a b) → ∃ resolvent : Clause,
      resolve a b pivot = .ok (some resolvent) ∧
      resolvent.lits.Pairwise (fun l m => l.code < m.code) ∧
      Proper resolvent.lits ∧
      ∀ l, l ∈ resolvent ↔ (l ∈ a ∨ l ∈ b) ∧ l ≠ pivot.positive ∧ l ≠ pivot.negative) := by
  have resolved := resolve_of_clash leftProper rightProper clash
  refine ⟨resolve_comm leftProper rightProper clash, ?_, ?_⟩
  · rw [resolved, ← not_clashOnlyOn_iff]
    by_cases clashOnly : ClashOnlyOn pivot a b <;> simp [clashOnly]
  · rw [← not_clashOnlyOn_iff, not_not]
    intro clashOnly
    rw [if_pos clashOnly] at resolved
    refine ⟨unionWithout pivot a b, resolved, (unionWithout pivot a b).ascending,
      proper_unionWithout leftProper rightProper clash clashOnly, fun l => ?_⟩
    rw [mem_unionWithout, Lit.var_ne_iff]

/-- The first clause holds the negation of the variable.  It has a resolvent with the second
clause, and none with the third, because they clash on `y` too. -/
theorem resolve_clashing_second_variable :
    let x : Var := ⟨0, by decide⟩
    let y : Var := ⟨1, by decide⟩
    let z : Var := ⟨2, by decide⟩
    let a := Clause.ofList [x.negative, y.negative, z.positive]
    let b := Clause.ofList [y.negative, x.positive]
    let c := Clause.ofList [y.positive, x.positive]
    (Proper a.lits ∧ Proper b.lits ∧ Proper c.lits) ∧
      (ClashesOn x a b ∧ resolve a b x = .ok (some (.ofList [z.positive, y.negative])) ∧
        resolve b a x = .ok (some (.ofList [z.positive, y.negative]))) ∧
      ClashesOn x a c ∧ resolve a c x = .ok none ∧ resolve c a x = .ok none := by
  intro x y z a b c
  have aProper : Proper a.lits := by decide
  have bProper : Proper b.lits := by decide
  have cProper : Proper c.lits := by decide
  have clashB : ClashesOn x a b := by decide
  have clashC : ClashesOn x a c := by decide
  obtain ⟨sameAnswer, -, -⟩ := resolve_clashing aProper bProper clashB
  obtain ⟨sameNone, noneIff, -⟩ := resolve_clashing aProper cProper clashC
  have resolvedB : resolve a b x = .ok (some (.ofList [z.positive, y.negative])) := by decide
  have resolvedC : resolve a c x = .ok none := noneIff.mpr ⟨y, by decide, by decide⟩
  exact ⟨⟨aProper, bProper, cProper⟩, ⟨clashB, resolvedB, sameAnswer ▸ resolvedB⟩,
    clashC, resolvedC, sameNone ▸ resolvedC⟩

end Clausal
