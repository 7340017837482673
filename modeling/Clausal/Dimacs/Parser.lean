import Clausal.Dimacs.Line
import Clausal.Formula
import Clausal.Text.Utf8

/-!
# Parsing in chunks

The parser takes bytes in chunks that may end anywhere, also inside a line or a character.  It
keeps the bytes of the unfinished line and works on a line once its newline, or the end of the
input, is there.  A line that fails changes nothing but the failure mark, and after a failure the
parser takes no more input.

The clauses parsed so far can be taken out between chunks.  Counts and header are of everything
parsed, taken out or not.
-/

set_option autoImplicit false

namespace Clausal.Dimacs

inductive ParseError
  | line (number : Nat) (fault : LineFault)
  /-- The header declares another number of variables. -/
  | varCount (found declared : Nat)
  | clauseCount (found declared : Nat)
  | previousError
  deriving DecidableEq, Repr

def ParseError.message : ParseError → String
  | .line number (.invalidLiteral token) =>
      s!"line {number}: Expected a literal but found '{token}'"
  | .line number .zeroLiteral => s!"line {number}: Literal 0 may only terminate a clause"
  | .line number (.literalTooLarge token) => s!"line {number}: Literal is too large: {token}"
  | .line number (.invalidHeader text) => s!"line {number}: Invalid header syntax: {text}"
  | .line number (.duplicateHeader text) => s!"line {number}: Duplicate header: {text}"
  | .varCount found declared =>
      s!"Formula has {found} variables while the header specifies {declared} variables"
  | .clauseCount found declared =>
      s!"Formula has {found} clauses while the header specifies {declared} clauses"
  | .previousError => "Parser invoked after a previous error"

/-- A parser between chunks. -/
structure Parser where
  /-- The clauses parsed and not taken out yet. -/
  formula : Formula
  /-- The bytes of the unfinished line. -/
  pending : Array UInt8
  header : Option Header
  /-- The number of the unfinished line. -/
  lineNumber : Nat
  varCount : Nat
  clauseCount : Nat
  failed : Bool
  deriving DecidableEq

namespace Parser

def startingAt (lineNumber : Nat) : Parser where
  formula := .empty
  pending := #[]
  header := none
  lineNumber := lineNumber
  varCount := 0
  clauseCount := 0
  failed := false

def new : Parser := startingAt 1

/-- Adds a clause, unless it is empty. -/
def addClause (parser : Parser) (lits : List Lit) : Parser :=
  if lits.isEmpty then parser
  else { parser with
    formula := parser.formula.addClause lits
    varCount := max parser.varCount (Formula.countFor lits)
    clauseCount := parser.clauseCount + 1 }

def readLine (parser : Parser) (text : List Char) : Except LineFault Parser :=
  match Line.ofText text with
  | .skipped => .ok parser
  | .clause tokens => (readClause tokens).map parser.addClause
  | .problem varCount clauseCount =>
      if parser.header.isSome then .error (.duplicateHeader (String.ofList text))
      else (readHeader text varCount clauseCount).map fun header =>
        { parser with header := some header }

def finishLine (parser : Parser) : Parser × Except ParseError Unit :=
  let cleared := { parser with pending := #[] }
  match cleared.readLine (trimBlanks (Utf8.decodeLossy parser.pending.toList)) with
  | .ok next => (next, .ok ())
  | .error fault => ({ cleared with failed := true }, .error (.line parser.lineNumber fault))

def newline : UInt8 := 10

/-- Takes bytes in order, up to the first line that fails. -/
def feedBytes (parser : Parser) : List UInt8 → Parser × Except ParseError Unit
  | [] => (parser, .ok ())
  | byte :: rest =>
      if byte = newline then
        match parser.finishLine with
        | (next, .ok ()) => { next with lineNumber := next.lineNumber + 1 }.feedBytes rest
        | (next, .error error) => (next, .error error)
      else
        { parser with pending := parser.pending.push byte }.feedBytes rest

def feed (parser : Parser) (chunk : List UInt8) : Parser × Except ParseError Unit :=
  if parser.failed then (parser, .error .previousError) else parser.feedBytes chunk

/-- Ends the input, which ends a last line without a newline. -/
def finish (parser : Parser) : Parser × Except ParseError Unit :=
  if parser.failed then (parser, .error .previousError)
  else if parser.pending.isEmpty then (parser, .ok ())
  else parser.finishLine

def checkHeader (parser : Parser) : Except ParseError Unit :=
  match parser.header with
  | none => .ok ()
  | some header =>
      if parser.varCount ≠ header.varCount then
        .error (.varCount parser.varCount header.varCount)
      else if parser.clauseCount ≠ header.clauseCount then
        .error (.clauseCount parser.clauseCount header.clauseCount)
      else
        .ok ()

/-- Takes out the clauses parsed since they were last taken out. -/
def takeFormula (parser : Parser) : Formula × Parser :=
  (parser.formula.setVarCount parser.varCount,
   { parser with formula := Formula.empty.setVarCount parser.varCount })

end Parser

end Clausal.Dimacs
