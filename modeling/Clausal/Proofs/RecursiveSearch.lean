import Clausal.Proofs.Backtracking

/-!
# Search by recursion

The search below a node can also be told by recursion: propagate, and on an open branch literal
explore everything below its true branch before anything below its false branch.  A stack stands
for the explorations that are still to make, one for each node (`exploreAll`).  A visit makes the
first of them or splits it in two (`explored_visit`), so the search with a stack runs
exactly as the recursion does, with the same answer, counters and log (`search_recursive`).
-/

set_option autoImplicit false

namespace Clausal

/-- A run, and the one that goes on where it ended if it found nothing. -/
def Run.orElse {α : Type} (run : Run (Option α)) (next : Progress → Run (Option α)) :
    Run (Option α) :=
  match run with
  | ⟨after, .ok none⟩ => next after
  | ⟨after, .ok (some answer)⟩ => .done after (some answer)
  | ⟨after, .error fault⟩ => .stopped after fault

theorem Run.orElse_assoc {α : Type} (run : Run (Option α))
    (next last : Progress → Run (Option α)) :
    (run.orElse next).orElse last = run.orElse fun after => (next after).orElse last := by
  obtain ⟨after, result⟩ := run
  cases result with
  | error fault => rfl
  | ok found => cases found <;> rfl

set_option linter.unusedVariables false in
/-- Explores the tree below a node.  The number of nodes that wait shows in the log only. -/
def explore (clauses : List (List Lit)) (pureLiterals : Bool) (node : Assignment) (waiting : Nat)
    (progress : Progress) : Run (Option Assignment) :=
  match propagated : propagate clauses pureLiterals node progress with
  | ⟨after, .error fault⟩ => .stopped after fault
  | ⟨after, .ok (.conflict, _)⟩ => .done after.conflict none
  | ⟨after, .ok (.satisfied, leaf)⟩ => .done after.modelFound (some leaf)
  | ⟨after, .ok (.undecided l, leaf)⟩ =>
      let decided := after.decision l.var waiting
      match whenFalse : leaf.assignVar l.var false, whenTrue : leaf.assignVar l.var true with
      | .ok falseChild, .ok trueChild =>
          (explore clauses pureLiterals trueChild (waiting + 1) decided).orElse
            (explore clauses pureLiterals falseChild waiting)
      | .error fault, _ => .stopped decided fault
      | .ok _, .error fault => .stopped decided fault
  termination_by openCount clauses node
  decreasing_by
    · exact openCount_child_lt (by rw [propagated]) whenTrue
    · exact openCount_child_lt (by rw [propagated]) whenFalse

def searchRecursively (clauses : List (List Lit)) (varCount : Nat) (pureLiterals : Bool)
    (progress : Progress) : Run (Option Assignment) :=
  match simplifyWritten clauses with
  | .unsat => .done progress none
  | .sat => .done progress (some (.withRoom varCount))
  | .remaining clauses =>
      (explore clauses pureLiterals (.withRoom varCount) 0 progress).orElse fun after =>
        .done after.exhausted none

def exploreAll (clauses : List (List Lit)) (pureLiterals : Bool) :
    List Assignment → Progress → Run (Option Assignment)
  | [], progress => .done progress.exhausted none
  | node :: waiting, progress =>
      (explore clauses pureLiterals node waiting.length progress).orElse
        (exploreAll clauses pureLiterals waiting)

section Stack

variable {clauses : List (List Lit)} {pureLiterals : Bool}

def Visit.explored (clauses : List (List Lit)) (pureLiterals : Bool) :
    Visit → Run (Option Assignment)
  | .over run => run
  | .next stack progress => exploreAll clauses pureLiterals stack progress

theorem explored_visit (stack : List Assignment) (progress : Progress) :
    (visit clauses pureLiterals stack progress).explored clauses pureLiterals =
      exploreAll clauses pureLiterals stack progress := by
  cases stack with
  | nil => rfl
  | cons node waiting =>
      rw [exploreAll, explore]
      split
      · next after fault propagated =>
          rw [visit, propagated]
          rfl
      · next after leaf propagated =>
          rw [visit, propagated]
          rfl
      · next after leaf propagated =>
          rw [visit, propagated]
          rfl
      · next after l leaf propagated =>
          dsimp only
          split
          · next falseChild trueChild whenFalse whenTrue =>
              simp only [visit, propagated, whenFalse, whenTrue]
              -- The stack has the false branch between the true branch and what waits.
              rw [Visit.explored, exploreAll, Run.orElse_assoc]
              rfl
          · next fault whenFalse =>
              simp only [visit, propagated, whenFalse]
              rfl
          · next falseChild fault whenFalse whenTrue =>
              simp only [visit, propagated, whenFalse, whenTrue]
              rfl

theorem searchFrom_eq_exploreAll (stack : List Assignment) (progress : Progress) :
    searchFrom clauses pureLiterals stack progress =
      exploreAll clauses pureLiterals stack progress := by
  fun_induction searchFrom clauses pureLiterals stack progress with
  | case1 stack progress run visited =>
      rw [← explored_visit, visited]
      rfl
  | case2 stack progress rest after visited inductionHypothesis =>
      rw [inductionHypothesis, ← explored_visit stack, visited]
      rfl

theorem search_eq_searchRecursively (clauses : List (List Lit)) (varCount : Nat)
    (pureLiterals : Bool) (progress : Progress) :
    search clauses varCount pureLiterals progress =
      searchRecursively clauses varCount pureLiterals progress := by
  cases simplified : simplifyWritten clauses with
  | unsat => simp only [search, searchRecursively, simplified]
  | sat => simp only [search, searchRecursively, simplified]
  | remaining kept =>
      simp only [search, searchRecursively, simplified]
      rw [searchFrom_eq_exploreAll]
      rfl

end Stack

/-- The search with a stack and the recursive search both end, with the same assignment or both
without one, and have then counted and logged the same. -/
theorem search_recursive (clauses : List (List Lit)) (varCount : Nat) (pureLiterals : Bool)
    (progress : Progress) :
    ∃ found after,
      search clauses varCount pureLiterals progress = .done after found ∧
      searchRecursively clauses varCount pureLiterals progress = .done after found := by
  obtain ⟨found, answered, _⟩ := search_found clauses varCount pureLiterals progress
  refine ⟨found, (search clauses varCount pureLiterals progress).progress, ?_, ?_⟩
  · rw [Run.done, ← answered]
  · rw [← search_eq_searchRecursively, Run.done, ← answered]

end Clausal
