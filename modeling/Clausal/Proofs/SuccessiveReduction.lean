import Clausal.Proofs.ForcedLiterals

/-!
# Successive reductions

A literal that is true or false stays so when an assignment is extended.  What the extension
leaves open of a clause is therefore what it leaves open of the literals that were open before
(`Assignment.Extends.openLits_openLits`).  So reducing residual clauses further comes to the same
as reducing the full clauses under the extension, conflicts included (`reduce?_successive`).
-/

set_option autoImplicit false

namespace Clausal

namespace Assignment.Extends

variable {assignment bound : Assignment}

theorem isTrue (keeps : bound.Extends assignment) {l : Lit}
    (wasTrue : assignment.isTrue l = true) : bound.isTrue l = true := by
  rw [isTrue_iff_value] at wasTrue ⊢
  exact keeps _ _ wasTrue

theorem isFalse (keeps : bound.Extends assignment) {l : Lit}
    (wasFalse : assignment.isFalse l = true) : bound.isFalse l = true := by
  rw [isFalse_iff] at wasFalse ⊢
  exact keeps _ _ wasFalse

theorem any_isTrue (keeps : bound.Extends assignment) {clause : List Lit}
    (anyTrue : clause.any assignment.isTrue = true) : clause.any bound.isTrue = true := by
  obtain ⟨l, inClause, wasTrue⟩ := List.any_eq_true.mp anyTrue
  exact List.any_eq_true.mpr ⟨l, inClause, keeps.isTrue wasTrue⟩

/-- The literals that were false before hold nothing open and nothing true. -/
theorem openLits_openLits (keeps : bound.Extends assignment) (clause : List Lit) :
    bound.openLits (assignment.openLits clause) = bound.openLits clause := by
  rw [openLits, openLits, openLits, List.filter_filter]
  refine List.filter_congr ?_
  intro l _
  cases wasFalse : assignment.isFalse l with
  | false => simp
  | true => simp [keeps.isFalse wasFalse]

theorem any_openLits (keeps : bound.Extends assignment) (clause : List Lit) :
    (assignment.openLits clause).any bound.isTrue = clause.any bound.isTrue := by
  rw [openLits, List.any_filter]
  congr 1
  funext l
  cases wasFalse : assignment.isFalse l with
  | false => simp
  | true => simp [isTrue_eq_false (keeps.isFalse wasFalse)]

theorem mem_openLits (keeps : bound.Extends assignment) {clause : List Lit} {l : Lit}
    (isOpen : l ∈ bound.openLits clause) : l ∈ assignment.openLits clause := by
  rw [← keeps.openLits_openLits] at isOpen
  exact (List.mem_filter.mp isOpen).1

theorem length_openLits_le (keeps : bound.Extends assignment) (clause : List Lit) :
    (bound.openLits clause).length ≤ (assignment.openLits clause).length := by
  rw [← keeps.openLits_openLits]
  exact List.length_filter_le _ _

end Assignment.Extends

section Reduction

variable {assignment bound : Assignment} {clauses residual : List (List Lit)}

/-- Reduction sees of the first clause whether it has a true literal and which are open, and of
the others what they reduce to. -/
theorem reduce?_cons_congr {first other : List Lit} {rest others : List (List Lit)}
    (sameTrue : first.any assignment.isTrue = other.any assignment.isTrue)
    (sameOpen : assignment.openLits first = assignment.openLits other)
    (sameRest : reduce? assignment rest = reduce? assignment others) :
    reduce? assignment (first :: rest) = reduce? assignment (other :: others) := by
  simp only [Assignment.openLits] at sameOpen
  rw [reduce?, reduce?, sameTrue, sameOpen, sameRest]

theorem reduce?_eq_none_of_extends (keeps : bound.Extends assignment)
    (reduced : reduce? assignment clauses = none) : reduce? bound clauses = none := by
  obtain ⟨clause, member, allFalse⟩ := reduce?_eq_none_iff.mp reduced
  exact reduce?_eq_none_iff.mpr
    ⟨clause, member, fun l inClause => keeps.isFalse (allFalse l inClause)⟩

theorem reduce?_residual (keeps : bound.Extends assignment)
    (reduced : reduce? assignment clauses = some residual) :
    reduce? bound residual = reduce? bound clauses := by
  induction clauses generalizing residual with
  | nil =>
      cases reduced
      rfl
  | cons clause rest inductionHypothesis =>
      by_cases anyTrue : clause.any assignment.isTrue = true
      · rw [reduce?, if_pos anyTrue] at reduced
        rw [inductionHypothesis reduced, reduce?, if_pos (keeps.any_isTrue anyTrue)]
      · rw [reduce?, if_neg anyTrue, ← Assignment.openLits] at reduced
        cases opened : assignment.openLits clause with
        | nil =>
            rw [opened] at reduced
            cases reduced
        | cons l lits =>
            rw [opened] at reduced
            obtain ⟨others, restReduced, rfl⟩ := Option.map_eq_some_iff.mp reduced
            -- The clause only lost literals that `bound` keeps false.
            rw [← opened]
            exact reduce?_cons_congr (keeps.any_openLits clause) (keeps.openLits_openLits clause)
              (inductionHypothesis restReduced)

end Reduction

/-- A conflict stays a conflict under an extension, and residual clauses reduce under it to the
same conflict or the same clauses as the full ones.  Under the assignment itself residual clauses
stay as they are, and they have the same completions of it as models. -/
theorem reduce?_successive {start bound : Assignment} (keeps : bound.Extends start)
    (clauses : List (List Lit)) :
    (reduce? start clauses = none → reduce? bound clauses = none) ∧
    ∀ residual, reduce? start clauses = some residual →
      reduce? bound residual = reduce? bound clauses ∧
      reduce? start residual = some residual ∧
      ∀ valuation, Valuation.Extends valuation start →
        (Valuation.Models valuation clauses ↔ Valuation.Models valuation residual) := by
  refine ⟨reduce?_eq_none_of_extends keeps, ?_⟩
  intro residual reduced
  refine ⟨reduce?_residual keeps reduced, ?_, ?_⟩
  · have again := reduce?_residual (fun _ _ => id) reduced
    rw [again, reduced]
  · intro valuation completes
    exact (models_residual_iff reduced completes).symm

theorem reduce?_successive_false_literal :
    let x : Var := ⟨0, by decide⟩
    let y : Var := ⟨1, by decide⟩
    let z : Var := ⟨2, by decide⟩
    let clauses := [[z.positive, x.negative, y.positive, z.positive], [x.positive, y.negative]]
    let residual := [[z.positive, y.positive, z.positive]]
    let start : Assignment := ⟨3, [x.positive], by decide⟩
    let bound : Assignment := ⟨3, [x.positive, y.negative], by decide⟩
    bound.Extends start ∧ reduce? start clauses = some residual ∧
      reduce? bound residual = some [[z.positive, z.positive]] ∧
      reduce? bound clauses = some [[z.positive, z.positive]] ∧
      reduce? start residual = some residual := by
  intro x y z clauses residual start bound
  have keeps : bound.Extends start := by
    intro v polarity wasBound
    rw [Assignment.value_eq_some_iff] at wasBound ⊢
    exact List.mem_cons.mpr (.inl (List.mem_singleton.mp wasBound))
  have reduced : reduce? start clauses = some residual := by decide +kernel
  obtain ⟨sameReduced, stays, _⟩ := (reduce?_successive keeps clauses).2 residual reduced
  have boundReduced : reduce? bound clauses = some [[z.positive, z.positive]] := by
    decide +kernel
  exact ⟨keeps, reduced, sameReduced.trans boundReduced, boundReduced, stays⟩

end Clausal
