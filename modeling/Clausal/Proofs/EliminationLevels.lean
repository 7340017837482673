import Clausal.Proofs.CanonicalModel

/-!
# The levels of an elimination

The loop of eliminations is followed state by state (`Eliminating`).  Every state has left behind
the pivots of its levels and all smaller variables (`LeftBehind`), so the pivots ascend, and there
are at most as many as the clauses that are not tautologies have variables.  Going back through
the levels never faults (`eliminate_levels`).
-/

set_option autoImplicit false

namespace Clausal

/-- The states of the loop: the levels so far, the last one first, the clauses that are left, and
what was counted. -/
inductive Eliminating (clauses : List Clause) (progress : Progress) :
    List EliminationLevel → List Clause → Progress → Prop
  | start : Eliminating clauses progress [] clauses progress
  | step {levels : List EliminationLevel} {level : EliminationLevel} {current next : List Clause}
      {before after : Progress} (earlier : Eliminating clauses progress levels current before)
      (run : eliminateSmallest current before = .done after (.eliminated level next)) :
      Eliminating clauses progress (level :: levels) next after

/-- Later levels and the clauses that are left are above the pivots of earlier levels. -/
structure LeftBehind (clauses : List Clause) (levels : List EliminationLevel)
    (current : List Clause) : Prop where
  ordered : levels.Pairwise fun later earlier =>
    earlier.pivot < later.pivot ∧ ∀ c ∈ later.clauses, ∀ l ∈ c, earlier.pivot < l.var
  ahead : ∀ level ∈ levels, ∀ c ∈ current, ∀ l ∈ c, level.pivot < l.var
  pivots : ∀ level ∈ levels, Constrained (clauses.map Clause.lits) level.pivot
  within : ∀ v, Constrained (current.map Clause.lits) v → Constrained (clauses.map Clause.lits) v

section Step

variable {clauses kept next current : List Clause} {pivot : Var} {levels : List EliminationLevel}

theorem LeftBehind.eliminate (leftBehind : LeftBehind clauses levels current)
    (simplified : simplify current = .remaining kept) (eliminated : Eliminated kept pivot next) :
    LeftBehind clauses (⟨pivot, kept⟩ :: levels) next := by
  have keptIff : ∀ c, c ∈ kept ↔ c ∈ current ∧ Proper c.lits :=
    mem_kept_iff (fun _ => Clause.isTautology_eq_false_iff) simplified
  have constrained : ∀ {v}, v ∈ variablesOf kept → Constrained (clauses.map Clause.lits) v := by
    intro v occurs
    refine leftBehind.within v ((constrained_kept_iff keptIff v).mpr ?_)
    exact (constrained_iff_of_proper eliminated.proper v).mpr occurs
  -- The new level lies above the earlier pivots because the clauses it was taken from do.
  have above : ∀ earlier ∈ levels, ∀ v ∈ variablesOf kept, earlier.pivot < v := by
    intro earlier member v occurs
    obtain ⟨c, cIn, l, inClause, rfl⟩ := mem_variablesOf.mp occurs
    exact leftBehind.ahead earlier member c ((keptIff c).mp cIn).1 l inClause
  constructor
  · refine List.pairwise_cons.mpr ⟨?_, leftBehind.ordered⟩
    intro earlier member
    refine ⟨above earlier member pivot eliminated.occurs, ?_⟩
    intro c cIn l inClause
    exact above earlier member l.var (mem_variablesOf.mpr ⟨c, cIn, l, inClause, rfl⟩)
  · intro earlier member c cIn l inClause
    obtain ⟨occurs, other⟩ := eliminated.projects.var_mem cIn inClause
    rcases List.mem_cons.mp member with rfl | before
    · exact eliminated.smallest l.var occurs other
    · exact above earlier before l.var occurs
  · intro earlier member
    rcases List.mem_cons.mp member with rfl | before
    · exact constrained eliminated.occurs
    · exact leftBehind.pivots earlier before
  · intro v occurs
    exact constrained (eliminated.constrained_next occurs).1

end Step

section Run

variable {clauses current : List Clause} {levels : List EliminationLevel}
  {progress before : Progress}

theorem leftBehind_of_eliminating
    (eliminating : Eliminating clauses progress levels current before) :
    LeftBehind clauses levels current ∧
      before.stats.eliminatedVars = progress.stats.eliminatedVars + levels.length := by
  induction eliminating with
  | start => exact ⟨⟨List.Pairwise.nil, by simp, by simp, fun _ => id⟩, rfl⟩
  | step earlier run inductionHypothesis =>
      obtain ⟨leftBehind, counted⟩ := inductionHypothesis
      obtain ⟨⟨simplified, eliminated⟩, count⟩ := describes_of_done run
      refine ⟨leftBehind.eliminate simplified eliminated, ?_⟩
      rw [count, counted, List.length_cons, Nat.add_assoc]

theorem LeftBehind.length_le (leftBehind : LeftBehind clauses levels current) :
    levels.length ≤ (constrainedVars clauses).length := by
  have distinct : (levels.map EliminationLevel.pivot).Nodup := by
    rw [List.Nodup, List.pairwise_map]
    refine leftBehind.ordered.imp ?_
    rintro later earlier ⟨below, _⟩ same
    exact Nat.lt_irrefl _ (same ▸ below)
  have subset : levels.map EliminationLevel.pivot ⊆ constrainedVars clauses := by
    intro v member
    obtain ⟨level, inLevels, rfl⟩ := List.mem_map.mp member
    exact mem_constrainedVars.mpr (leftBehind.pivots level inLevels)
  simpa using distinct.length_le_of_subset subset

theorem eliminateFrom_eliminating
    (eliminating : Eliminating clauses progress levels current before) :
    ∃ all rest after, Eliminating clauses progress all rest after ∧
      (simplify rest = .unsat ∧
          eliminateFrom levels current before = .done (after.eliminationFailed all.length) none ∨
        simplify rest = .sat ∧ eliminateFrom levels current before = .done after (some all)) := by
  fun_induction eliminateFrom levels current before with
  | case1 levels current before after fault run => exact absurd run eliminateSmallest_ne_stopped
  | case2 levels current before after run =>
      obtain ⟨simplified, rfl⟩ := describes_of_done run
      exact ⟨levels, current, after, eliminating, .inl ⟨simplified, rfl⟩⟩
  | case3 levels current before after run =>
      obtain ⟨simplified, rfl⟩ := describes_of_done run
      exact ⟨levels, current, after, eliminating, .inr ⟨simplified, rfl⟩⟩
  | case4 levels current before after level next run inductionHypothesis =>
      exact inductionHypothesis (eliminating.step run)

end Run

/-- Elimination never faults.  Its levels, the last one first, have ascending pivots, and no later
level mentions an earlier pivot or a smaller variable.  They are counted, and there are at most as
many as the clauses that are not tautologies have variables. -/
theorem eliminate_levels (clauses : List Clause) (varCount : Nat) (progress : Progress) :
    ∃ found levels rest after,
      (eliminate clauses varCount progress).result = .ok found ∧
      Eliminating clauses progress levels rest after ∧
      (simplify rest = .unsat ∧ found = none ∨
        simplify rest = .sat ∧ ∃ assignment, found = some assignment ∧
          extendThrough (.withRoom varCount) levels = .ok assignment) ∧
      levels.Pairwise (fun later earlier =>
        earlier.pivot < later.pivot ∧ ∀ c ∈ later.clauses, ∀ l ∈ c, earlier.pivot < l.var) ∧
      (eliminate clauses varCount progress).progress.stats.eliminatedVars =
        progress.stats.eliminatedVars + levels.length ∧
      levels.length ≤ (constrainedVars clauses).length := by
  obtain ⟨levels, rest, after, eliminating, ending⟩ :=
    eliminateFrom_eliminating (@Eliminating.start clauses progress)
  obtain ⟨leftBehind, counted⟩ := leftBehind_of_eliminating eliminating
  obtain ⟨found, answered, _⟩ := eliminate_minimizes clauses varCount progress
  refine ⟨found, levels, rest, after, answered, eliminating, ?_, leftBehind.ordered, ?_,
    leftBehind.length_le⟩
  · rcases ending with ⟨simplified, run⟩ | ⟨simplified, run⟩
    · simp only [eliminate, run, Run.done, Except.ok.injEq] at answered
      exact .inl ⟨simplified, answered.symm⟩
    · simp only [eliminate, run, Run.done] at answered
      cases extended : extendThrough (.withRoom varCount) levels with
      | error fault =>
          rw [extended] at answered
          cases answered
      | ok assignment =>
          rw [extended] at answered
          cases answered
          exact .inr ⟨simplified, assignment, rfl, rfl⟩
  · rw [← counted]
    rcases ending with ⟨simplified, run⟩ | ⟨simplified, run⟩
    · simp only [eliminate, run, Run.done]
      rfl
    · simp only [eliminate, run, Run.done]

end Clausal
