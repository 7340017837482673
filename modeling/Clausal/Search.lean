import Clausal.Propagation
import Clausal.Simplify

/-!
# Backtracking search

Depth-first search over partial assignments, with propagation at every node.  The nodes still to
visit stand on a stack, the next one first.  A node that propagation leaves undecided is replaced
by its two children: the branching variable true, to be explored first, and false.

The search below a node is at most a full binary tree whose depth is the number of literal
occurrences open under it, and its size is the weight of the node.  Two children weigh less than
their parent together, so the weight of the stack falls with every visit (`stackWeight_visit_lt`).
-/

set_option autoImplicit false

namespace Clausal

namespace Progress

def conflict (progress : Progress) : Progress :=
  progress.count fun stats => { stats with conflicts := stats.conflicts + 1 }

def decision (progress : Progress) (v : Var) (waiting : Nat) : Progress :=
  (progress.note (.trace s!"decide {v} at depth {waiting}")).count fun stats =>
    { stats with decisions := stats.decisions + 1 }

def modelFound (progress : Progress) : Progress :=
  let stats := progress.stats
  progress.note (.debug
    s!"model found after {stats.decisions} decisions and {stats.conflicts} conflicts")

def exhausted (progress : Progress) : Progress :=
  let stats := progress.stats
  progress.note (.debug
    s!"search space exhausted after {stats.decisions} decisions and {stats.conflicts} conflicts")

end Progress

def fullTreeSize : Nat → Nat
  | 0 => 1
  | depth + 1 => 2 * fullTreeSize depth + 1

theorem fullTreeSize_pos (depth : Nat) : 0 < fullTreeSize depth := by
  cases depth <;> simp [fullTreeSize]

theorem fullTreeSize_mono {depth larger : Nat} (atMost : depth ≤ larger) :
    fullTreeSize depth ≤ fullTreeSize larger := by
  induction atMost with
  | refl => exact Nat.le_refl _
  | step _ inductionHypothesis =>
      rw [fullTreeSize]
      omega

/-- Two trees of smaller depth have fewer nodes together than a tree of the larger one. -/
theorem fullTreeSize_children_lt {first second parent : Nat} (firstLess : first < parent)
    (secondLess : second < parent) :
    fullTreeSize first + fullTreeSize second < fullTreeSize parent := by
  obtain ⟨depth, rfl⟩ := Nat.exists_eq_add_one_of_ne_zero (Nat.ne_zero_of_lt firstLess)
  have firstAtMost := fullTreeSize_mono (Nat.le_of_lt_succ firstLess)
  have secondAtMost := fullTreeSize_mono (Nat.le_of_lt_succ secondLess)
  rw [fullTreeSize]
  omega

/-- A node weighs as much as a tree whose depth is the number of open occurrences. -/
def stackWeight (clauses : List (List Lit)) : List Assignment → Nat
  | [] => 0
  | node :: rest => fullTreeSize (openCount clauses node) + stackWeight clauses rest

theorem stackWeight_cons (clauses : List (List Lit)) (assignment : Assignment)
    (stack : List Assignment) :
    stackWeight clauses (assignment :: stack) =
      fullTreeSize (openCount clauses assignment) + stackWeight clauses stack := rfl

theorem stackWeight_tail_lt (clauses : List (List Lit)) (assignment : Assignment)
    (stack : List Assignment) :
    stackWeight clauses stack < stackWeight clauses (assignment :: stack) := by
  have positive := fullTreeSize_pos (openCount clauses assignment)
  rw [stackWeight_cons]
  omega

/-- A child of the leaf that propagation ends with has fewer open occurrences than the node. -/
theorem openCount_child_lt {clauses : List (List Lit)} {pureLiterals : Bool}
    {node leaf child : Assignment} {progress : Progress} {l : Lit} {polarity : Bool}
    (propagated : (propagate clauses pureLiterals node progress).result =
      .ok (.undecided l, leaf))
    (assigned : leaf.assignVar l.var polarity = .ok child) :
    openCount clauses child < openCount clauses node :=
  Nat.lt_of_lt_of_le
    (openCount_assign_lt ⟨l, mem_of_propagate_undecided propagated, by simp⟩ assigned)
    (openCount_propagate propagated)

/-- Replacing a node by its two children lowers the weight of the stack. -/
theorem stackWeight_children_lt {clauses : List (List Lit)}
    {node whenTrue whenFalse : Assignment} (stack : List Assignment)
    (trueLess : openCount clauses whenTrue < openCount clauses node)
    (falseLess : openCount clauses whenFalse < openCount clauses node) :
    stackWeight clauses (whenTrue :: whenFalse :: stack) <
      stackWeight clauses (node :: stack) := by
  have lighter := fullTreeSize_children_lt trueLess falseLess
  rw [stackWeight_cons, stackWeight_cons, stackWeight_cons]
  omega

inductive Visit
  | over (run : Run (Option Assignment))
  | next (stack : List Assignment) (progress : Progress)

def visit (clauses : List (List Lit)) (pureLiterals : Bool) (stack : List Assignment)
    (progress : Progress) : Visit :=
  match stack with
  | [] => .over (.done progress.exhausted none)
  | node :: waiting =>
      match propagate clauses pureLiterals node progress with
      | ⟨after, .error fault⟩ => .over (.stopped after fault)
      | ⟨after, .ok (.conflict, _)⟩ => .next waiting after.conflict
      | ⟨after, .ok (.satisfied, leaf)⟩ => .over (.done after.modelFound (some leaf))
      | ⟨after, .ok (.undecided l, leaf)⟩ =>
          let decided := after.decision l.var waiting.length
          match leaf.assignVar l.var false, leaf.assignVar l.var true with
          | .ok whenFalse, .ok whenTrue => .next (whenTrue :: whenFalse :: waiting) decided
          | .error fault, _ => .over (.stopped decided fault)
          | .ok _, .error fault => .over (.stopped decided fault)

/-- Every visit after which the search goes on lowers the weight of the stack. -/
theorem stackWeight_visit_lt {clauses : List (List Lit)} {pureLiterals : Bool}
    {stack rest : List Assignment} {progress after : Progress}
    (visited : visit clauses pureLiterals stack progress = .next rest after) :
    stackWeight clauses rest < stackWeight clauses stack := by
  cases stack with
  | nil => cases visited
  | cons node waiting =>
      simp only [visit] at visited
      split at visited
      · cases visited
      · simp only [Visit.next.injEq] at visited
        rw [← visited.1]
        exact stackWeight_tail_lt clauses node waiting
      · cases visited
      · next propagated l leaf run =>
          have answered : (propagate clauses pureLiterals node progress).result =
              .ok (.undecided l, leaf) := by rw [run]
          split at visited
          · next whenFalse whenTrue assignedFalse assignedTrue =>
              cases visited
              exact stackWeight_children_lt waiting (openCount_child_lt answered assignedTrue)
                (openCount_child_lt answered assignedFalse)
          · cases visited
          · cases visited

set_option linter.unusedVariables false in
def searchFrom (clauses : List (List Lit)) (pureLiterals : Bool) (stack : List Assignment)
    (progress : Progress) : Run (Option Assignment) :=
  match visited : visit clauses pureLiterals stack progress with
  | .over run => run
  | .next rest after => searchFrom clauses pureLiterals rest after
  termination_by stackWeight clauses stack
  decreasing_by exact stackWeight_visit_lt visited

/-- Decides clauses given as written.  The answer is an assignment under which every clause that
is not a tautology has a true literal, or nothing when there is none. -/
def search (clauses : List (List Lit)) (varCount : Nat) (pureLiterals : Bool)
    (progress : Progress) : Run (Option Assignment) :=
  match simplifyWritten clauses with
  | .unsat => .done progress none
  | .sat => .done progress (some (.withRoom varCount))
  | .remaining clauses => searchFrom clauses pureLiterals [.withRoom varCount] progress

end Clausal
