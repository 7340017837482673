import Clausal.Dimacs.Line
import Clausal.Formula

/-!
# Writing DIMACS

The text of a formula is its header and one line per clause.  It is written piece by piece into a
sink, which may have room for a limited number of characters.  All the text is ASCII, so
characters are bytes.
-/

set_option autoImplicit false

namespace Clausal.Dimacs

def headerText (header : Header) : List Char :=
  "p cnf ".toList ++ Numeral.natural header.varCount ++ [' '] ++
    Numeral.natural header.clauseCount ++ ['\n']

def clauseText (lits : List Lit) : List Char :=
  lits.flatMap (fun l => l.text ++ [' ']) ++ ['0', '\n']

def headerOf (formula : Formula) : Header := ⟨formula.varCount, formula.size⟩

def formulaText (formula : Formula) : List Char :=
  headerText (headerOf formula) ++ formula.clauses.flatMap clauseText

/-- Where text is written, with the room that is left if it is limited. -/
structure Sink where
  room : Option Nat
  written : String
  deriving DecidableEq

/-- A sink that is full, with all it could hold. -/
structure Full where
  written : String
  deriving DecidableEq

def Full.message : String := "failed to write whole buffer"

namespace Sink

def withRoom (room : Option Nat) : Sink := ⟨room, ""⟩

/-- Writes a text, or as much of it as there is room for. -/
def put (sink : Sink) (text : List Char) : Except Full Sink :=
  match sink.room with
  | none => .ok { sink with written := sink.written ++ String.ofList text }
  | some room =>
      if text.length ≤ room then
        .ok ⟨some (room - text.length), sink.written ++ String.ofList text⟩
      else
        .error ⟨sink.written ++ String.ofList (text.take room)⟩

def putHeader (sink : Sink) (header : Header) : Except Full Sink :=
  sink.put (headerText header)

def putLits (sink : Sink) : List Lit → Except Full Sink
  | [] => .ok sink
  | l :: rest =>
      match sink.put l.text with
      | .error full => .error full
      | .ok next =>
          match next.put [' '] with
          | .error full => .error full
          | .ok next => next.putLits rest

def putClauses (sink : Sink) : List (List Lit) → Except Full Sink
  | [] => .ok sink
  | lits :: rest =>
      match sink.putLits lits with
      | .error full => .error full
      | .ok next =>
          match next.put ['0', '\n'] with
          | .error full => .error full
          | .ok next => next.putClauses rest

def putFormula (sink : Sink) (formula : Formula) : Except Full Sink :=
  match sink.putHeader (headerOf formula) with
  | .error full => .error full
  | .ok next => next.putClauses formula.clauses

end Sink

end Clausal.Dimacs
