/-!
# Faults

The preconditions that operations check before they change anything.  A fault is never the
answer to a well-formed request: the decision procedures are meant to run without one.
-/

set_option autoImplicit false

namespace Clausal

/-- A broken precondition, the reason why an operation gives no result. -/
inductive Fault
  /-- A variable was asked for by a number that is not positive. -/
  | variableNumber (number : Int)
  /-- A variable was asked for by an index past the largest one. -/
  | variableIndex (index : Nat)
  /-- The least 64-bit integer has no 64-bit magnitude. -/
  | magnitude
  /-- A variable that has a value was bound again. -/
  | alreadyAssigned (number : Nat)
  /-- Two clauses were resolved on a variable on which they do not clash. -/
  | noClash
  /-- A clause was asked for past the end of a formula; the index is the first one that misses
  the table of clause ends. -/
  | clauseIndex (length index : Nat)
  /-- The value of a variable was written past the end of a table. -/
  | slotIndex (length index : Nat)
  /-- A nonempty list of nonempty clauses has no variable. -/
  | noVariable
  /-- Neither value of an eliminated variable satisfies the clauses of its level. -/
  | unsatisfiedLevel (number : Nat)
  deriving DecidableEq, Repr

def Fault.message : Fault → String
  | .variableNumber number => s!"variable numbers start at 1, got {number}"
  | .variableIndex index => s!"variable index {index} out of range"
  | .magnitude => "attempt to negate with overflow"
  | .alreadyAssigned number => s!"variable {number} is already assigned"
  | .noClash => "assertion failed: a.contains(lit) && b.contains(!lit)"
  | .clauseIndex length index | .slotIndex length index =>
      s!"index out of bounds: the len is {length} but the index is {index}"
  | .noVariable => "internal error: entered unreachable code: non-empty clause without variables"
  | .unsatisfiedLevel number => s!"no value of {number} satisfies its level"

theorem map_eq_ok_iff {ε α β : Type} {f : α → β} {result : Except ε α} {b : β} :
    result.map f = .ok b ↔ ∃ a, result = .ok a ∧ f a = b := by
  cases result <;> simp [Except.map]

end Clausal
