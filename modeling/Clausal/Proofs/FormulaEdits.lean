import Clausal.Proofs.ListedFormula

/-!
# Formulas made by edits

A formula is made by adding clauses and raising the number of variables, in any order.  Its
clauses are the cuts of one buffer, and each cut lies inside the buffer (`exists_cut`).  So the
clauses are those that were added, as they were written, and the formula has no more than them and
its number of variables to be told apart by (`edited_represents`).
-/

set_option autoImplicit false

namespace Clausal.Formula

/-! ## Where the clauses stand -/

/-- One clause of a formula is what its buffer holds from `start` to `stop`. -/
structure Cut (formula : Formula) (index start stop : Nat) : Prop where
  start_eq : (0 :: formula.ends.toList)[index]? = some start
  stop_eq : formula.ends[index]? = some stop
  start_le : start ≤ stop
  stop_le : stop ≤ formula.lits.size
  clause_eq : formula.clause index = .ok (formula.lits.extract start stop).toList

theorem getElem?_cutAt {lits : Array Lit} {first : Nat} {ends : List Nat} {index start stop : Nat}
    (isStart : (first :: ends)[index]? = some start) (isStop : ends[index]? = some stop) :
    (cutAt lits first ends)[index]? = some (lits.extract start stop).toList := by
  induction ends generalizing first index with
  | nil => cases isStop
  | cons second rest inductionHypothesis =>
      cases index with
      | zero =>
          cases isStart
          cases isStop
          rfl
      | succ index => exact inductionHypothesis isStart isStop

/-- The ends ascend and the last one is the end of the buffer, so every clause lies inside. -/
theorem exists_cut (formula : Formula) {index : Nat} (inside : index < formula.size) :
    ∃ start stop, Cut formula index start stop := by
  have within : index < formula.ends.toList.length := by
    rw [Array.length_toList]
    exact inside
  have startWithin : index < (0 :: formula.ends.toList).length := Nat.lt_succ_of_lt within
  have isStart := List.getElem?_eq_getElem startWithin
  have isStop : formula.ends[index]? = some formula.ends.toList[index] := by
    rw [← Array.getElem?_toList, List.getElem?_eq_getElem within]
  refine ⟨_, _, isStart, isStop, ?_, formula.ends_within _ (List.getElem_mem within), ?_⟩
  · exact List.pairwise_iff_getElem.mp formula.ends_above_zero index (index + 1) startWithin
      (Nat.succ_lt_succ within) (Nat.lt_succ_self index)
  · cases index with
    | zero => simp only [clause, isStop, if_true, List.getElem_cons_zero]
    | succ index =>
        have isEarlier : formula.ends[index]? = some (0 :: formula.ends.toList)[index + 1] := by
          rw [← Array.getElem?_toList, ← isStart, List.getElem?_cons_succ]
        simp only [clause, isStop, Nat.succ_ne_zero, if_false, Nat.add_sub_cancel, isEarlier]

theorem Cut.getElem?_clauses {formula : Formula} {index start stop : Nat}
    (cut : Cut formula index start stop) :
    formula.clauses[index]? = some (formula.lits.extract start stop).toList := by
  refine getElem?_cutAt cut.start_eq ?_
  rw [Array.getElem?_toList]
  exact cut.stop_eq

/-- Looking the clauses up one by one gives all of them in order. -/
theorem map_clause_range (formula : Formula) :
    (List.range formula.size).map formula.clause = formula.clauses.map Except.ok := by
  apply List.ext_getElem?
  intro index
  rw [List.getElem?_map, List.getElem?_map]
  by_cases inside : index < formula.size
  · obtain ⟨start, stop, cut⟩ := formula.exists_cut inside
    rw [List.getElem?_range inside, cut.getElem?_clauses]
    exact congrArg some cut.clause_eq
  · have beyond : formula.clauses.length ≤ index := by
      rw [length_clauses]
      exact Nat.le_of_not_lt inside
    have past : (List.range formula.size).length ≤ index := by
      rw [List.length_range]
      exact Nat.le_of_not_lt inside
    rw [List.getElem?_eq_none beyond, List.getElem?_eq_none past]
    rfl

/-! ## Edits -/

inductive Edit
  | addClause (lits : List Lit)
  | setVarCount (count : Nat)

namespace Edit

def apply (formula : Formula) : Edit → Formula
  | .addClause lits => formula.addClause lits
  | .setVarCount count => formula.setVarCount count

def clauses : Edit → List (List Lit)
  | .addClause lits => [lits]
  | .setVarCount _ => []

/-- The counts that the number of variables has to reach after an edit. -/
def counts : Edit → List Nat
  | .addClause lits => lits.map fun l => l.var.index + 1
  | .setVarCount count => [count]

end Edit

def edited (edits : List Edit) : Formula := edits.foldl Edit.apply empty

theorem clauses_apply (formula : Formula) (edit : Edit) :
    (edit.apply formula).clauses = formula.clauses ++ edit.clauses := by
  cases edit with
  | addClause lits => exact clauses_addClause formula lits
  | setVarCount count => exact (List.append_nil _).symm

theorem varCount_apply (formula : Formula) (edit : Edit) :
    (edit.apply formula).varCount = edit.counts.foldl max formula.varCount := by
  cases edit with
  | addClause lits =>
      have fromStart := foldl_countFor lits formula.varCount
      rw [Edit.counts, List.foldl_map]
      exact fromStart.symm
  | setVarCount count => rfl

theorem clauses_foldl_apply (edits : List Edit) (formula : Formula) :
    (edits.foldl Edit.apply formula).clauses = formula.clauses ++ edits.flatMap Edit.clauses := by
  induction edits generalizing formula with
  | nil => exact (List.append_nil _).symm
  | cons edit rest inductionHypothesis =>
      rw [List.foldl_cons, inductionHypothesis, clauses_apply, List.flatMap_cons,
        List.append_assoc]

theorem varCount_foldl_apply (edits : List Edit) (formula : Formula) :
    (edits.foldl Edit.apply formula).varCount =
      (edits.flatMap Edit.counts).foldl max formula.varCount := by
  induction edits generalizing formula with
  | nil => rfl
  | cons edit rest inductionHypothesis =>
      rw [List.foldl_cons, inductionHypothesis, varCount_apply, List.flatMap_cons,
        List.foldl_append]

theorem clauses_edited (edits : List Edit) :
    (edited edits).clauses = edits.flatMap Edit.clauses :=
  clauses_foldl_apply edits empty

theorem ofClauses_eq_edited (clauses : List (List Lit)) :
    ofClauses clauses = edited (clauses.map Edit.addClause) := by
  rw [ofClauses, edited, List.foldl_map]
  rfl

/-- A formula made by edits has just the clauses that were added, in order and as they were
written.  Each of them is found inside the buffer by its index.  The number of variables is the
largest of what it was raised to and of what the literals need.  Two such formulas are equal
exactly when they have as many variables and the same clauses, and one made from a list is made by
adding the clauses of the list. -/
theorem edited_represents (edits : List Edit) :
    (edited edits).clauses = edits.flatMap Edit.clauses ∧
    (List.range (edited edits).size).map (edited edits).clause =
      (edits.flatMap Edit.clauses).map Except.ok ∧
    (∀ index < (edited edits).size, ∃ start stop, Cut (edited edits) index start stop) ∧
    (edited edits).varCount = (edits.flatMap Edit.counts).foldl max 0 ∧
    (∀ others, edited edits = edited others ↔
      (edited edits).varCount = (edited others).varCount ∧
        edits.flatMap Edit.clauses = others.flatMap Edit.clauses) ∧
    ∀ clauses, ofClauses clauses = edited (clauses.map Edit.addClause) := by
  have added := clauses_edited edits
  refine ⟨added, ?_, fun index inside => (edited edits).exists_cut inside,
    varCount_foldl_apply edits empty, ?_, ofClauses_eq_edited⟩
  · rw [map_clause_range, added]
  · intro others
    rw [← added, ← clauses_edited others]
    constructor
    · intro same
      rw [same]
      exact ⟨rfl, rfl⟩
    · rintro ⟨sameCount, sameClauses⟩
      exact ext_clauses sameCount sameClauses

/-- An empty clause between others is found, and the same literals cut elsewhere make another
formula. -/
theorem edited_represents_empty_clause :
    let x : Var := ⟨0, by decide⟩
    let y : Var := ⟨1, by decide⟩
    let edits := [Edit.addClause [y.positive, x.negative], .setVarCount 7, .addClause [],
      .addClause [x.negative]]
    let others := [Edit.setVarCount 7, .addClause [y.positive], .addClause [],
      .addClause [x.negative, x.negative]]
    1 < (edited edits).size ∧ (∃ start stop, Cut (edited edits) 1 start stop) ∧
      (edited edits).varCount = 7 ∧ (edited others).varCount = 7 ∧
      (edited edits).lits = (edited others).lits ∧ edited edits ≠ edited others := by
  intro x y edits others
  obtain ⟨_, _, inBuffer, varCount, equalIff, _⟩ := edited_represents edits
  have inside : 1 < (edited edits).size := by decide
  refine ⟨inside, inBuffer 1 inside, varCount.trans (by decide), by decide, by decide, ?_⟩
  intro same
  exact absurd ((equalIff others).mp same).2 (by decide)

end Clausal.Formula
