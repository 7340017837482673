import Clausal.Lit
import Clausal.Text.Blank

/-!
# The lines of a DIMACS file

A line without the blanks around it is empty, a comment, a problem line or a clause.  Problem
lines that do not read `p cnf VARIABLES CLAUSES` are passed over like comments.  A clause is a
list of nonzero integers which a single zero may end.
-/

set_option autoImplicit false

namespace Clausal.Dimacs

structure Header where
  varCount : Nat
  clauseCount : Nat
  deriving DecidableEq, Repr

inductive LineFault
  /-- A word of a clause is not an integer of 64 bits. -/
  | invalidLiteral (token : String)
  /-- A zero stands before the end of a clause. -/
  | zeroLiteral
  /-- A number is larger than the number of the last variable. -/
  | literalTooLarge (token : String)
  /-- The counts of a problem line are not numbers. -/
  | invalidHeader (line : String)
  /-- There has been a problem line already. -/
  | duplicateHeader (line : String)
  deriving DecidableEq, Repr

/-- What a line holds, before its numbers are read. -/
inductive Line
  | skipped
  /-- The words for the two counts of a problem line. -/
  | problem (varCount clauseCount : List Char)
  | clause (tokens : List (List Char))
  deriving DecidableEq

def Line.ofText : List Char → Line
  | [] => .skipped
  | 'c' :: _ => .skipped
  | 'p' :: rest =>
      match words ('p' :: rest) with
      | _ :: ['c', 'n', 'f'] :: varCount :: clauseCount :: _ => .problem varCount clauseCount
      | _ => .skipped
  | text => .clause (words text)

def readClause : List (List Char) → Except LineFault (List Lit)
  | [] => .ok []
  | token :: rest =>
      match Numeral.signedWord? token with
      | none => .error (.invalidLiteral (String.ofList token))
      | some n =>
          if n = 0 then
            if rest.isEmpty then .ok [] else .error .zeroLiteral
          else
            match Lit.ofInt? n with
            | none => .error (.literalTooLarge (String.ofList token))
            | some l => (readClause rest).map (l :: ·)

def readHeader (line varCount clauseCount : List Char) : Except LineFault Header :=
  match Numeral.unsignedWord? varCount, Numeral.unsignedWord? clauseCount with
  | some vars, some clauses =>
      if vars ≤ Var.maxCount then .ok ⟨vars, clauses⟩
      else .error (.literalTooLarge (String.ofList varCount))
  | _, _ => .error (.invalidHeader (String.ofList line))

end Clausal.Dimacs
