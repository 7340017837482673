import Mathlib.Data.List.Induction
import Clausal.Proofs.LoadedClauses

/-!
# Formulas as lists of clauses

A formula made from a list has its clauses, and as many variables as their literals need.  Every
formula is given by its clauses and its number of variables (`ext_clauses`).
-/

set_option autoImplicit false

namespace Clausal.Formula

theorem countFor_eq_max? (lits : List Lit) :
    countFor lits = (lits.map fun l => l.var.number).max?.getD 0 := by
  have asMax : countFor lits = (lits.map fun l => l.var.number).foldl max 0 := by
    rw [countFor, List.foldl_map]
  rw [asMax, List.foldl_max, Nat.zero_max]

theorem foldl_countFor (lits : List Lit) (start : Nat) :
    lits.foldl (fun count l => max count l.var.number) start = max start (countFor lits) := by
  induction lits generalizing start with
  | nil => exact (Nat.max_zero start).symm
  | cons l rest inductionHypothesis =>
      rw [countFor, List.foldl_cons, List.foldl_cons, inductionHypothesis, inductionHypothesis,
        Nat.zero_max, Nat.max_assoc]

theorem countFor_append (front back : List Lit) :
    countFor (front ++ back) = max (countFor front) (countFor back) := by
  rw [countFor, List.foldl_append, foldl_countFor back]
  rfl

theorem ofClauses_append_singleton (clauses : List (List Lit)) (lits : List Lit) :
    ofClauses (clauses ++ [lits]) = (ofClauses clauses).addClause lits := by
  rw [ofClauses, List.foldl_append]
  rfl

theorem clauses_ofClauses (clauses : List (List Lit)) : (ofClauses clauses).clauses = clauses := by
  rw [ofClauses, clauses_foldl_addClause, clauses_empty, List.nil_append]

theorem varCount_ofClauses (clauses : List (List Lit)) :
    (ofClauses clauses).varCount = countFor clauses.flatten := by
  induction clauses using List.reverseRecOn with
  | nil => rfl
  | append_singleton clauses lits inductionHypothesis =>
      rw [ofClauses_append_singleton, varCount_addClause, inductionHypothesis, List.flatten_append,
        countFor_append, List.flatten_singleton]

theorem length_cutAt (lits : Array Lit) (start : Nat) (ends : List Nat) :
    (cutAt lits start ends).length = ends.length := by
  induction ends generalizing start with
  | nil => rfl
  | cons stop rest inductionHypothesis =>
      rw [cutAt, List.length_cons, inductionHypothesis, List.length_cons]

theorem length_clauses (formula : Formula) : formula.clauses.length = formula.size :=
  length_cutAt formula.lits 0 formula.ends.toList

theorem varCount_foldl_addClause (formula : Formula) (new : List (List Lit)) :
    (new.foldl addClause formula).varCount = max formula.varCount (countFor new.flatten) := by
  induction new generalizing formula with
  | nil => exact (Nat.max_zero _).symm
  | cons lits rest inductionHypothesis =>
      rw [List.foldl_cons, inductionHypothesis, varCount_addClause, List.flatten_cons,
        countFor_append, Nat.max_assoc]

theorem varCount_append (formula other : Formula) :
    (formula.append other).varCount =
      max formula.varCount (max (countFor other.clauses.flatten) other.varCount) := by
  rw [append, varCount_setVarCount, varCount_foldl_addClause, Nat.max_assoc]

/-! ## The buffers of a formula -/

/-- Where the clauses of a list end in a buffer, the first one of which starts at `start`. -/
def endsFrom (start : Nat) : List (List Lit) → List Nat
  | [] => []
  | lits :: rest => (start + lits.length) :: endsFrom (start + lits.length) rest

section Buffers

variable {lits : Array Lit} {start : Nat} {ends : List Nat}

theorem length_extract_toList {stop : Nat} (within : stop ≤ lits.size) :
    (lits.extract start stop).toList.length = stop - start := by
  rw [Array.length_toList, Array.size_extract, Nat.min_eq_left within]

theorem endsFrom_cutAt (ascending : (start :: ends).Pairwise (· ≤ ·))
    (within : ∀ stop ∈ ends, stop ≤ lits.size) : endsFrom start (cutAt lits start ends) = ends := by
  induction ends generalizing start with
  | nil => rfl
  | cons stop rest inductionHypothesis =>
      obtain ⟨above, restAscending⟩ := List.pairwise_cons.mp ascending
      have startBelow : start ≤ stop := above stop (by simp)
      rw [cutAt, endsFrom, length_extract_toList (within stop (by simp)),
        Nat.add_sub_of_le startBelow,
        inductionHypothesis restAscending fun other member => within other (by simp [member])]

/-- The pieces between consecutive ends make up the buffer from the start to the last end. -/
theorem flatten_cutAt (ascending : (start :: ends).Pairwise (· ≤ ·)) :
    (cutAt lits start ends).flatten = (lits.extract start (ends.getLast?.getD start)).toList := by
  induction ends generalizing start with
  | nil => simp [cutAt]
  | cons stop rest inductionHypothesis =>
      obtain ⟨above, restAscending⟩ := List.pairwise_cons.mp ascending
      have startBelow : start ≤ stop := above stop (by simp)
      have stopBelow := le_getLast restAscending List.mem_cons_self
      rw [List.getLast?_cons, Option.getD_some] at stopBelow ⊢
      rw [cutAt, List.flatten_cons, inductionHypothesis restAscending, ← Array.toList_append,
        Array.extract_append_extract, Nat.min_eq_left startBelow, Nat.max_eq_right stopBelow]

end Buffers

theorem ends_above_zero (formula : Formula) : (0 :: formula.ends.toList).Pairwise (· ≤ ·) :=
  List.pairwise_cons.mpr ⟨fun stop _ => Nat.zero_le stop, formula.ends_ascending⟩

theorem endsFrom_clauses (formula : Formula) :
    endsFrom 0 formula.clauses = formula.ends.toList :=
  endsFrom_cutAt formula.ends_above_zero formula.ends_within

theorem flatten_clauses (formula : Formula) : formula.clauses.flatten = formula.lits.toList := by
  rw [clauses, flatten_cutAt formula.ends_above_zero, formula.last_end, Array.extract_size]

theorem ext_clauses {formula other : Formula} (sameCount : formula.varCount = other.varCount)
    (sameClauses : formula.clauses = other.clauses) : formula = other := by
  have sameLits : formula.lits = other.lits := by
    rw [← Array.toList_inj, ← flatten_clauses, ← flatten_clauses, sameClauses]
  have sameEnds : formula.ends = other.ends := by
    rw [← Array.toList_inj, ← endsFrom_clauses, ← endsFrom_clauses, sameClauses]
  cases formula
  cases other
  rw [mk.injEq]
  exact ⟨sameCount, sameLits, sameEnds⟩

theorem append_empty (formula : Formula) : formula.append .empty = formula := by
  apply ext_clauses
  · rw [varCount_append]
    exact Nat.max_zero _
  · rw [clauses_append]
    exact List.append_nil _

end Clausal.Formula
