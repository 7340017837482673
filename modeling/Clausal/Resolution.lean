import Clausal.Clause
import Clausal.Progress

/-!
# Resolution

Two clauses that clash on a variable have a resolvent: what is left of both without that
variable's clashing literals.  A resolvent that is a tautology says nothing and is passed over.
-/

set_option autoImplicit false

namespace Clausal

/-- Resolves two clauses on a variable on which they clash; absent when the resolvent is a
tautology.  The empty resolvent is a contradiction. -/
def resolve (a b : Clause) (pivot : Var) : Except Fault (Option Clause) :=
  let l := pivot.lit (a.contains pivot.positive)
  if a.contains l && b.contains (-l) then
    let resolvent := Clause.ofList
      (a.lits.filter (fun other => other != l) ++ b.lits.filter (fun other => other != -l))
    .ok (if resolvent.isTautology then none else some resolvent)
  else
    .error .noClash

def Progress.resolvent (progress : Progress) : Progress :=
  progress.count fun stats => { stats with resolvents := stats.resolvents + 1 }

def resolvePairs (pivot : Var) : List (Clause × Clause) → Progress → Run (List Clause)
  | [], progress => .done progress []
  | (a, b) :: rest, progress =>
      match resolve a b pivot with
      | .error fault => .stopped progress fault
      | .ok none => resolvePairs pivot rest progress
      | .ok (some resolvent) =>
          (resolvePairs pivot rest progress.resolvent).map (resolvent :: ·)

/-- The distinct resolvents between clauses that hold a variable and clauses that hold its
negation, in the order in which they first arise. -/
def resolveOn (positive negative : List Clause) (pivot : Var) (progress : Progress) :
    Run (List Clause) :=
  let pairs := positive.flatMap fun a => negative.map fun b => (a, b)
  (resolvePairs pivot pairs progress).map List.eraseDups

/-- A resolvent has the literals of both clauses but the two resolved ones. -/
theorem mem_resolvent {a b resolvent : Clause} {pivot : Var}
    (resolved : resolve a b pivot = .ok (some resolvent)) {m : Lit} :
    m ∈ resolvent ↔
      (m ∈ a ∧ m ≠ pivot.lit (a.contains pivot.positive)) ∨
        (m ∈ b ∧ m ≠ -pivot.lit (a.contains pivot.positive)) := by
  simp only [resolve] at resolved
  split at resolved
  · simp only [Except.ok.injEq] at resolved
    split at resolved
    · cases resolved
    · simp only [Option.some.injEq] at resolved
      subst resolved
      simp
  · cases resolved

/-- Clauses can only be resolved on a variable on which they clash. -/
theorem clash_of_resolve {a b : Clause} {pivot : Var} {answer : Option Clause}
    (resolved : resolve a b pivot = .ok answer) :
    pivot.lit (a.contains pivot.positive) ∈ a ∧ -pivot.lit (a.contains pivot.positive) ∈ b := by
  simp only [resolve] at resolved
  split at resolved
  · next clash => simpa using clash
  · cases resolved

/-- What is left of two clauses without a clash has other variables, unless one of the clauses
holds both literals of the clash. -/
theorem var_ne_of_mem_rests {a b : Clause} {l m : Lit} (leftProper : -l ∉ a) (rightProper : l ∉ b)
    (member : (m ∈ a ∧ m ≠ l) ∨ (m ∈ b ∧ m ≠ -l)) : m.var ≠ l.var := by
  intro sameVar
  rcases Lit.eq_or_eq_negate sameVar with same | negated
  · rcases member with ⟨_, other⟩ | ⟨fromRight, _⟩
    · exact other same
    · exact rightProper (same ▸ fromRight)
  · rcases member with ⟨fromLeft, _⟩ | ⟨_, other⟩
    · exact leftProper (negated ▸ fromLeft)
    · exact other negated

/-- Without tautologies the resolved variable is gone. -/
theorem pivot_not_in_resolvent {a b resolvent : Clause} {pivot : Var}
    (resolved : resolve a b pivot = .ok (some resolvent)) (aProper : a.isTautology = false)
    (bProper : b.isTautology = false) {m : Lit} (member : m ∈ resolvent) : m.var ≠ pivot := by
  have ⟨inA, inB⟩ := clash_of_resolve resolved
  have notInB := Clause.negate_notMem bProper inB
  rw [Lit.negate_negate] at notInB
  have other := var_ne_of_mem_rests (Clause.negate_notMem aProper inA) notInB
    ((mem_resolvent resolved).mp member)
  rwa [Lit.var_lit] at other

theorem exists_pair_of_mem_resolvePairs {pivot : Var} {pairs : List (Clause × Clause)}
    {progress : Progress} {resolvents : List Clause}
    (run : (resolvePairs pivot pairs progress).result = .ok resolvents) {c : Clause}
    (member : c ∈ resolvents) :
    ∃ a b, (a, b) ∈ pairs ∧ resolve a b pivot = .ok (some c) := by
  fun_induction resolvePairs pivot pairs progress generalizing resolvents with
  | case1 =>
      cases run
      cases member
  | case2 => cases run
  | case3 a b rest progress resolved inductionHypothesis =>
      obtain ⟨x, y, inRest, isResolvent⟩ := inductionHypothesis run member
      exact ⟨x, y, List.mem_cons_of_mem _ inRest, isResolvent⟩
  | case4 a b rest progress resolvent resolved inductionHypothesis =>
      obtain ⟨others, restRun, rfl⟩ := Run.map_result_eq_ok_iff.mp run
      rcases List.mem_cons.mp member with head | tail
      · exact ⟨a, b, List.mem_cons_self, head ▸ resolved⟩
      · obtain ⟨x, y, inRest, isResolvent⟩ := inductionHypothesis restRun tail
        exact ⟨x, y, List.mem_cons_of_mem _ inRest, isResolvent⟩

theorem exists_pair_of_mem_resolveOn {positive negative : List Clause} {pivot : Var}
    {progress : Progress} {resolvents : List Clause}
    (run : (resolveOn positive negative pivot progress).result = .ok resolvents) {c : Clause}
    (member : c ∈ resolvents) :
    ∃ a ∈ positive, ∃ b ∈ negative, resolve a b pivot = .ok (some c) := by
  obtain ⟨all, pairsRun, rfl⟩ := Run.map_result_eq_ok_iff.mp run
  obtain ⟨a, b, inPairs, isResolvent⟩ :=
    exists_pair_of_mem_resolvePairs pairsRun (List.mem_eraseDups.mp member)
  obtain ⟨x, xIn, inRow⟩ := List.mem_flatMap.mp inPairs
  obtain ⟨y, yIn, same⟩ := List.mem_map.mp inRow
  cases same
  exact ⟨a, xIn, b, yIn, isResolvent⟩

end Clausal
