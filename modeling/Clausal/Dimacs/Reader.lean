import Clausal.Dimacs.Parser

/-!
# Reading a whole input

An input comes in pieces.  It is handed to the parser in chunks of at most `chunkSize` bytes,
each from one piece; an empty piece ends the input, and a piece may also be a failure to read.
After every chunk, and once more at the end of the input, a visitor sees the parser and may take
clauses out of it or stop the reading.
-/

set_option autoImplicit false

namespace Clausal.Dimacs

inductive Piece
  | bytes (data : List UInt8)
  | failure (text : String)
  deriving DecidableEq, Repr

def chunkSize : Nat := 8192

def chunksOf (data : List UInt8) : List (List UInt8) :=
  match data with
  | [] => []
  | byte :: rest => (byte :: rest).take chunkSize :: chunksOf ((byte :: rest).drop chunkSize)
  termination_by data.length
  decreasing_by
    rw [List.length_drop]
    simp only [List.length_cons, chunkSize]
    omega

/-- The chunks before an input ends, and the text of the failure if it ends in one. -/
def chunks : List Piece → List (List UInt8) × Option String
  | [] => ([], none)
  | .failure text :: _ => ([], some text)
  | .bytes [] :: _ => ([], none)
  | .bytes (byte :: data) :: rest =>
      let later := chunks rest
      (chunksOf (byte :: data) ++ later.1, later.2)

inductive ReadError (ε : Type)
  | parse (error : ParseError)
  | input (text : String)
  | visitor (error : ε)

/-- What a visitor does: it changes its own state and the parser, or stops the reading. -/
abbrev Visitor (σ ε : Type) := σ → Parser → σ × Except ε Parser

variable {σ ε : Type}

def feedChunks (visit : Visitor σ ε) (state : σ) (parser : Parser) :
    List (List UInt8) → σ × Except (ReadError ε) Parser
  | [] => (state, .ok parser)
  | chunk :: rest =>
      match parser.feed chunk with
      | (_, .error error) => (state, .error (.parse error))
      | (fed, .ok ()) =>
          match visit state fed with
          | (after, .error error) => (after, .error (.visitor error))
          | (after, .ok next) => feedChunks visit after next rest

/-- Reads a whole input with a new parser.  The visitor's state survives every error. -/
def readWith (visit : Visitor σ ε) (state : σ) (input : List Piece) :
    σ × Except (ReadError ε) Parser :=
  match feedChunks visit state .new (chunks input).1 with
  | (after, .error error) => (after, .error error)
  | (after, .ok parser) =>
      match (chunks input).2 with
      | some text => (after, .error (.input text))
      | none =>
          match parser.finish with
          | (_, .error error) => (after, .error (.parse error))
          | (finished, .ok ()) =>
              match visit after finished with
              | (last, .error error) => (last, .error (.visitor error))
              | (last, .ok next) => (last, .ok next)

def parse (input : List Piece) : Except (ReadError Empty) Formula :=
  (readWith (fun (_ : Unit) parser => ((), .ok parser)) () input).2.map fun parser =>
    parser.takeFormula.1

end Clausal.Dimacs
