import Clausal.Formula

/-!
# Normal forms and trivial formulas

The procedures start from one of two forms of a formula: clauses as sets, or clauses as written
with each literal at its first place only.  Both drop tautologies first, which nothing can
falsify.  What is left is unsatisfiable when it holds an empty clause and satisfiable when it
holds no clause at all; otherwise the procedure has to work.
-/

set_option autoImplicit false

namespace Clausal

namespace Formula

def normalized (formula : Formula) : List Clause :=
  formula.clauses.map Clause.ofList

/-- The clauses of a formula as written, each literal at its first place only. -/
def withoutRepeats (formula : Formula) : List (List Lit) :=
  formula.clauses.map List.eraseDups

end Formula

/-- What is left of a clause list without its tautologies. -/
inductive Simplified (α : Type) where
  | unsat
  | sat
  /-- These clauses are left, and none is empty. -/
  | remaining (clauses : List α)
  deriving DecidableEq

namespace Simplified

def classify {α : Type} (isTautology isEmpty : α → Bool) (clauses : List α) : Simplified α :=
  let kept := clauses.filter fun clause => !isTautology clause
  if kept.any isEmpty then .unsat
  else if kept.isEmpty then .sat
  else .remaining kept

end Simplified

def simplify (clauses : List Clause) : Simplified Clause :=
  .classify Clause.isTautology Clause.isEmpty clauses

def isTautologyWritten (lits : List Lit) : Bool :=
  (Clause.ofList lits).isTautology

def simplifyWritten (clauses : List (List Lit)) : Simplified (List Lit) :=
  .classify isTautologyWritten List.isEmpty clauses

end Clausal
