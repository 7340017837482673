import Clausal.Proofs.Satisfaction
import Clausal.Resolution

/-!
# Resolvents

Two clauses without tautologies that clash on a literal are resolved to the rest of both
(`resolve_of_mem`).  The resolvent is the same whichever clause comes first (`joined_comm`), and
every valuation that satisfies both clauses satisfies it (`satisfies_joined`).
-/

set_option autoImplicit false

namespace Clausal

def joined (a b : Clause) (l : Lit) : Clause :=
  Clause.ofList (a.lits.filter (fun m => m != l) ++ b.lits.filter (fun m => m != -l))

theorem mem_joined {a b : Clause} {l m : Lit} :
    m ∈ joined a b l ↔ (m ∈ a ∧ m ≠ l) ∨ (m ∈ b ∧ m ≠ -l) := by
  simp [joined]

theorem joined_comm (a b : Clause) (l : Lit) : joined b a (-l) = joined a b l := by
  apply Clause.ext_lits
  refine Ascending.eq_of_mem_iff (joined b a (-l)).ascending (joined a b l).ascending ?_
  intro m
  rw [Clause.mem_lits, Clause.mem_lits, mem_joined, mem_joined, Lit.negate_negate, or_comm]

theorem lit_contains_of_mem {a : Clause} {l : Lit} (proper : Proper a.lits) (member : l ∈ a) :
    l.var.lit (a.contains l.var.positive) = l := by
  have sameLit := Lit.lit_var_isPositive l
  cases polarity : l.isPositive with
  | true =>
      rw [polarity] at sameLit
      have holdsPositive : a.contains l.var.positive = true := by
        rw [Clause.contains_iff_mem, Var.positive, sameLit]
        exact member
      rw [holdsPositive, sameLit]
  | false =>
      rw [polarity] at sameLit
      have notPositive : a.contains l.var.positive = false := by
        rw [← Bool.not_eq_true, Clause.contains_iff_mem]
        intro inClause
        have negated : -l = l.var.positive := by
          rw [← sameLit, Lit.negate_lit, Lit.var_lit]
          rfl
        exact proper l member (negated ▸ inClause)
      rw [notPositive, sameLit]

/-- Resolving on a variable on which clauses clash never faults. -/
theorem resolve_of_mem {a b : Clause} {l : Lit} (proper : Proper a.lits) (inLeft : l ∈ a)
    (inRight : -l ∈ b) :
    resolve a b l.var =
      .ok (if Proper (joined a b l).lits then some (joined a b l) else none) := by
  have clash : (a.contains l && b.contains (-l)) = true := by
    rw [Bool.and_eq_true, Clause.contains_iff_mem, Clause.contains_iff_mem]
    exact ⟨inLeft, inRight⟩
  simp only [resolve, lit_contains_of_mem proper inLeft]
  rw [if_pos clash]
  change Except.ok (if (joined a b l).isTautology then none else some (joined a b l)) = _
  by_cases tautology : (joined a b l).isTautology = true
  · have notProper : ¬Proper (joined a b l).lits := by
      rw [← Clause.isTautology_eq_false_iff, tautology]
      exact Bool.noConfusion
    rw [if_pos tautology, if_neg notProper]
  · have isProper : Proper (joined a b l).lits := by
      rw [← Clause.isTautology_eq_false_iff, ← Bool.not_eq_true]
      exact tautology
    rw [if_neg tautology, if_pos isProper]

theorem exists_clash_of_resolve {a b : Clause} {pivot : Var} {answer : Option Clause}
    (resolved : resolve a b pivot = .ok answer) : ∃ l ∈ a, -l ∈ b ∧ l.var = pivot := by
  obtain ⟨inLeft, inRight⟩ := clash_of_resolve resolved
  exact ⟨_, inLeft, inRight, Lit.var_lit _ _⟩

theorem eq_joined_of_resolve {a b resolvent : Clause} {pivot : Var} (proper : Proper a.lits)
    (resolved : resolve a b pivot = .ok (some resolvent)) :
    ∃ l ∈ a, -l ∈ b ∧ l.var = pivot ∧ resolvent = joined a b l ∧ Proper resolvent.lits := by
  obtain ⟨l, inLeft, inRight, sameVar⟩ := exists_clash_of_resolve resolved
  refine ⟨l, inLeft, inRight, sameVar, ?_⟩
  rw [← sameVar, resolve_of_mem proper inLeft inRight, Except.ok.injEq] at resolved
  split at resolved
  · next isProper =>
      cases resolved
      exact ⟨rfl, isProper⟩
  · cases resolved

theorem satisfies_joined {a b : Clause} {l : Lit} {valuation : Valuation}
    (left : Valuation.Satisfies valuation a.lits) (right : Valuation.Satisfies valuation b.lits) :
    Valuation.Satisfies valuation (joined a b l).lits := by
  by_cases holds : l.Holds valuation
  · -- the negation of `l` is false, so the right clause has another true literal
    obtain ⟨m, inRight, mHolds⟩ := right
    refine ⟨m, mem_joined.mpr (.inr ⟨inRight, ?_⟩), mHolds⟩
    rintro rfl
    exact holds_negate.mp mHolds holds
  · obtain ⟨m, inLeft, mHolds⟩ := left
    refine ⟨m, mem_joined.mpr (.inl ⟨inLeft, ?_⟩), mHolds⟩
    rintro rfl
    exact holds mHolds

theorem var_ne_of_mem_joined {a b : Clause} {l m : Lit} (leftProper : Proper a.lits)
    (rightProper : Proper b.lits) (inLeft : l ∈ a) (inRight : -l ∈ b) (member : m ∈ joined a b l) :
    m.var ≠ l.var :=
  var_ne_of_mem_rests (leftProper l inLeft) (fun inB => rightProper l inB inRight)
    (mem_joined.mp member)

end Clausal
