import Clausal.Assignment
import Clausal.Formula

/-!
# Checking a model

An assignment is accepted for a formula when each clause holds a true literal or is a tautology,
which every completion of the assignment satisfies.
-/

set_option autoImplicit false

namespace Clausal

/-- A clause, as written, that an assignment leaves unsatisfied. -/
structure InvalidModel where
  clause : List Lit
  deriving DecidableEq

def InvalidModel.message (invalid : InvalidModel) : String :=
  s!"Internal error: model does not satisfy input clause {bracketed invalid.clause}"

/-- Whether an assignment is bound to satisfy a written clause. -/
def Assignment.settles (assignment : Assignment) (lits : List Lit) : Bool :=
  (Clause.ofList lits).isTautology || assignment.satisfies (Clause.ofList lits)

def checkModel (formula : Formula) (assignment : Assignment) : Except InvalidModel Unit :=
  match formula.clauses.find? fun lits => !assignment.settles lits with
  | none => .ok ()
  | some lits => .error ⟨lits⟩

end Clausal
