import Clausal.Assignment
import Clausal.Resolution
import Clausal.Simplify

/-!
# Variable elimination

The smallest variable is eliminated: the clauses that hold it are replaced by their resolvents on
it, which leaves a list without it that is satisfiable exactly when the list before was.  When
no clause is left, a model is built by going back through the levels, the last one first.

No level mentions the variable of an earlier one, so every elimination lowers the number of
variables (`length_variablesOf_next_lt`).
-/

set_option autoImplicit false

namespace Clausal

/-- The clauses that were present when a variable was eliminated. -/
structure EliminationLevel where
  pivot : Var
  clauses : List Clause

structure Partition where
  positive : List Clause
  negative : List Clause
  rest : List Clause

namespace Partition

/-- Sorts clauses by the first of the variable's literals that they hold. -/
def on (pivot : Var) (clauses : List Clause) : Partition where
  positive := clauses.filter fun c => c.contains pivot.positive
  negative := clauses.filter fun c => !c.contains pivot.positive && c.contains pivot.negative
  rest := clauses.filter fun c => !c.contains pivot.positive && !c.contains pivot.negative

end Partition

namespace Progress

def eliminated (progress : Progress) : Progress :=
  progress.count fun stats => { stats with eliminatedVars := stats.eliminatedVars + 1 }

def eliminating (progress : Progress) (pivot : Var) (parts : Partition) (resolvents : Nat) :
    Progress :=
  progress.note (.debug
    (s!"eliminating {pivot}: {parts.positive.length} positive, " ++
      s!"{parts.negative.length} negative, {resolvents} resolvents, " ++
      s!"{parts.rest.length} untouched"))

def eliminationFailed (progress : Progress) (levels : Nat) : Progress :=
  progress.note (.debug s!"empty clause after eliminating {levels} variables")

end Progress

theorem mem_of_simplify {clauses kept : List Clause} (simplified : simplify clauses = .remaining kept)
    {c : Clause} (member : c ∈ kept) : c ∈ clauses ∧ c.isTautology = false := by
  simp only [simplify, Simplified.classify] at simplified
  split at simplified
  · cases simplified
  · split at simplified
    · cases simplified
    · simp only [Simplified.remaining.injEq] at simplified
      rw [← simplified, List.mem_filter] at member
      simpa using member

section Next

variable {clauses kept resolvents : List Clause} {pivot : Var} {progress : Progress}

theorem mem_rest_iff {c : Clause} :
    c ∈ (Partition.on pivot kept).rest ↔
      c ∈ kept ∧ pivot.positive ∉ c ∧ -pivot.positive ∉ c := by
  simp only [Partition.on, List.mem_filter, Bool.and_eq_true, Bool.not_eq_true',
    ← Bool.not_eq_true, Clause.contains_iff_mem, Var.negative_eq]

/-- The clauses after an elimination mention only other variables of the clauses before. -/
theorem var_of_mem_next (proper : ∀ c ∈ kept, c.isTautology = false)
    (resolved : (resolveOn (Partition.on pivot kept).positive (Partition.on pivot kept).negative
      pivot progress).result = .ok resolvents) {c : Clause}
    (member : c ∈ ((Partition.on pivot kept).rest ++ resolvents).eraseDups) {l : Lit}
    (inClause : l ∈ c) : l.var ≠ pivot ∧ l.var ∈ variablesOf kept := by
  rcases List.mem_append.mp (List.mem_eraseDups.mp member) with untouched | isResolvent
  · obtain ⟨cIn, noPositive, noNegative⟩ := mem_rest_iff.mp untouched
    exact ⟨Clause.var_ne_of_notMem noPositive noNegative inClause,
      mem_variablesOf.mpr ⟨c, cIn, l, inClause, rfl⟩⟩
  · obtain ⟨a, aIn, b, bIn, isResolved⟩ := exists_pair_of_mem_resolveOn resolved isResolvent
    have aKept := (List.mem_filter.mp aIn).1
    have bKept := (List.mem_filter.mp bIn).1
    refine ⟨pivot_not_in_resolvent isResolved (proper a aKept) (proper b bKept) inClause, ?_⟩
    rcases (mem_resolvent isResolved).mp inClause with ⟨inA, _⟩ | ⟨inB, _⟩
    · exact mem_variablesOf.mpr ⟨a, aKept, l, inA, rfl⟩
    · exact mem_variablesOf.mpr ⟨b, bKept, l, inB, rfl⟩

/-- The clauses after an elimination have fewer variables than the clauses before. -/
theorem length_variablesOf_next_lt {others : List Var}
    (simplified : simplify clauses = .remaining kept)
    (vars : variablesOf kept = pivot :: others)
    (resolved : (resolveOn (Partition.on pivot kept).positive (Partition.on pivot kept).negative
      pivot progress).result = .ok resolvents) :
    (variablesOf ((Partition.on pivot kept).rest ++ resolvents).eraseDups).length <
      (variablesOf clauses).length := by
  have next := fun {c} => @var_of_mem_next kept resolvents pivot progress
    (fun _ member => (mem_of_simplify simplified member).2) resolved c
  have keptWithin : ∀ v ∈ variablesOf kept, v ∈ variablesOf clauses := by
    intro v member
    obtain ⟨c, cIn, l, lIn, sameVar⟩ := mem_variablesOf.mp member
    exact mem_variablesOf.mpr ⟨c, (mem_of_simplify simplified cIn).1, l, lIn, sameVar⟩
  have pivotIn : pivot ∈ variablesOf clauses := keptWithin pivot (by simp [vars])
  refine Ascending.length_lt_of_subset ascending_variablesOf ?_ pivotIn ?_
  · intro v member
    obtain ⟨c, cIn, l, lIn, sameVar⟩ := mem_variablesOf.mp member
    rw [← sameVar]
    exact keptWithin l.var (next cIn lIn).2
  · intro member
    obtain ⟨c, cIn, l, lIn, sameVar⟩ := mem_variablesOf.mp member
    exact (next cIn lIn).1 sameVar

end Next

inductive EliminationStep
  | unsat
  | sat
  /-- A variable was eliminated, which left other clauses. -/
  | eliminated (level : EliminationLevel) (next : List Clause)

def eliminateSmallest (clauses : List Clause) (progress : Progress) : Run EliminationStep :=
  match simplify clauses with
  | .unsat => .done progress .unsat
  | .sat => .done progress .sat
  | .remaining kept =>
      match variablesOf kept with
      | [] => .stopped progress .noVariable
      | pivot :: _ =>
          let parts := Partition.on pivot kept
          match resolveOn parts.positive parts.negative pivot progress with
          | ⟨after, .error fault⟩ => .stopped after fault
          | ⟨after, .ok resolvents⟩ =>
              .done (after.eliminating pivot parts resolvents.length).eliminated
                (.eliminated ⟨pivot, kept⟩ (parts.rest ++ resolvents).eraseDups)

theorem length_variablesOf_eliminated_lt {clauses next : List Clause} {level : EliminationLevel}
    {progress : Progress}
    (step : (eliminateSmallest clauses progress).result = .ok (.eliminated level next)) :
    (variablesOf next).length < (variablesOf clauses).length := by
  unfold eliminateSmallest at step
  split at step
  · cases step
  · cases step
  · next kept simplified =>
      split at step
      · cases step
      · next pivot others vars =>
          dsimp only at step
          split at step
          · cases step
          · next after resolvents run =>
              cases step
              exact length_variablesOf_next_lt simplified vars (by rw [run])

set_option linter.unusedVariables false in
/-- Eliminates variables until the clauses are trivial.  The answer is the levels, the last one
first, or nothing when an empty clause is left. -/
def eliminateFrom (levels : List EliminationLevel) (clauses : List Clause) (progress : Progress) :
    Run (Option (List EliminationLevel)) :=
  match step : eliminateSmallest clauses progress with
  | ⟨after, .error fault⟩ => .stopped after fault
  | ⟨after, .ok .unsat⟩ => .done (after.eliminationFailed levels.length) none
  | ⟨after, .ok .sat⟩ => .done after (some levels)
  | ⟨after, .ok (.eliminated level next)⟩ => eliminateFrom (level :: levels) next after
  termination_by (variablesOf clauses).length
  decreasing_by exact length_variablesOf_eliminated_lt (by rw [step])

def fillFalse (pivot : Var) (assignment : Assignment) : List Lit → Except Fault Assignment
  | [] => .ok assignment
  | l :: rest =>
      if l.var != pivot && (assignment.value l.var).isNone then
        match assignment.assignVar l.var false with
        | .ok next => fillFalse pivot next rest
        | .error fault => .error fault
      else
        fillFalse pivot assignment rest

def EliminationLevel.isSatisfied (level : EliminationLevel) (assignment : Assignment) : Bool :=
  level.clauses.all assignment.satisfies

/-- Extends a model of the later levels to a level: its variables that no later level bound become
false, and so does its pivot unless that leaves a clause unsatisfied. -/
def extendModel (level : EliminationLevel) (assignment : Assignment) : Except Fault Assignment := do
  let filled ← fillFalse level.pivot assignment (level.clauses.flatMap Clause.lits)
  let low ← filled.assignVar level.pivot false
  if level.isSatisfied low then
    return low
  let high ← (low.unassign level.pivot).assignVar level.pivot true
  if level.isSatisfied high then
    return high
  throw (.unsatisfiedLevel level.pivot.number)

def extendThrough (assignment : Assignment) : List EliminationLevel → Except Fault Assignment
  | [] => .ok assignment
  | level :: rest =>
      match extendModel level assignment with
      | .ok next => extendThrough next rest
      | .error fault => .error fault

def eliminate (clauses : List Clause) (varCount : Nat) (progress : Progress) :
    Run (Option Assignment) :=
  match eliminateFrom [] clauses progress with
  | ⟨after, .error fault⟩ => .stopped after fault
  | ⟨after, .ok none⟩ => .done after none
  | ⟨after, .ok (some levels)⟩ => ⟨after, (extendThrough (.withRoom varCount) levels).map some⟩

end Clausal
