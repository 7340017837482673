import Mathlib.Algebra.Group.Nat.Defs
import Clausal.Lit

/-!
# Literals as integers

The integers that stand for literals are those of magnitude one to the number of the last
variable, and each stands for one literal.
-/

set_option autoImplicit false

namespace Clausal.Lit

theorem natAbs_toInt (l : Lit) : l.toInt.natAbs = l.var.number := by
  rw [toInt]
  split
  · rw [Int.natAbs_neg, Int.natAbs_natCast]
  · rw [Int.natAbs_natCast]

theorem natAbs_toInt_pos (l : Lit) : 1 ≤ l.toInt.natAbs := by
  rw [natAbs_toInt, Var.number]
  omega

theorem natAbs_toInt_le (l : Lit) : l.toInt.natAbs ≤ 2 ^ 28 := by
  have inRange := l.var.index_lt
  rw [natAbs_toInt, Var.number]
  omega

theorem toInt_lit (v : Var) (polarity : Bool) :
    (v.lit polarity).toInt = if polarity then (v.number : Int) else -(v.number : Int) := by
  rw [toInt, var_lit, isNegative_eq, isPositive_lit]
  cases polarity <;> rfl

theorem ofInt?_eq_some_iff {n : Int} {l : Lit} : ofInt? n = some l ↔ l.toInt = n := by
  constructor
  · intro named
    rw [ofInt?] at named
    split at named
    · next inRange =>
        cases named
        rw [toInt_lit, Var.number]
        by_cases positive : 0 < n
        · rw [if_pos (decide_eq_true positive)]
          simp only
          omega
        · rw [if_neg (by simpa using positive)]
          simp only
          omega
    · cases named
  · rintro rfl
    have lower := l.natAbs_toInt_pos
    have upper := l.natAbs_toInt_le
    rw [ofInt?, dif_pos ⟨lower, upper⟩]
    congr 1
    have sameVar : (⟨l.toInt.natAbs - 1, by omega⟩ : Var) = l.var := by
      apply Var.ext_index
      simp only [natAbs_toInt, Var.number]
      omega
    have samePolarity : decide (0 < l.toInt) = l.isPositive := by
      rw [toInt, isNegative_eq, Var.number]
      cases l.isPositive
      · simp only [Bool.not_false, if_true, decide_eq_false_iff_not]
        omega
      · simp only [Bool.not_true, Bool.false_eq_true, if_false, decide_eq_true_eq]
        omega
    rw [sameVar, samePolarity, lit_var_isPositive]

theorem ofInt?_eq_none_iff {n : Int} : ofInt? n = none ↔ ¬(1 ≤ n.natAbs ∧ n.natAbs ≤ 2 ^ 28) := by
  rw [ofInt?]
  split
  · next inRange => simp [inRange]
  · next outOfRange => simpa using outOfRange

end Clausal.Lit
