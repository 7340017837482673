import Clausal.Proofs.ChunkBorders

/-!
# The lines of an input

Cutting an input at its newlines first and reading the lines one after another afterwards gives
what the parser makes of the bytes in order (`run_eq_readLines`).
-/

set_option autoImplicit false

namespace Clausal.Dimacs

def lineText (line : List UInt8) : List Char := trimBlanks (Utf8.decodeLossy line)

def linesOf (bytes : List UInt8) : List (List Char) :=
  (bytes.splitOn Parser.newline).map lineText

theorem linesOf_of_notMem {line : List UInt8} (inside : Parser.newline ∉ line) :
    linesOf line = [lineText line] := by
  rw [linesOf, List.splitOn_eq_singleton inside]
  rfl

theorem linesOf_append_newline {line : List UInt8} (inside : Parser.newline ∉ line)
    (rest : List UInt8) : linesOf (line ++ Parser.newline :: rest) = lineText line :: linesOf rest := by
  rw [linesOf, List.splitOn_append_cons_self_of_not_mem inside]
  rfl

theorem linesOf_ne_nil (bytes : List UInt8) : linesOf bytes ≠ [] := by
  simp [linesOf]

namespace Parser

def cleared (parser : Parser) : Parser := { parser with pending := #[] }

def readLines (parser : Parser) : List (List Char) → Parser × Except ParseError Unit
  | [] => (parser, .ok ())
  | text :: rest =>
      match parser.readLine text with
      | .error fault => ({ parser with failed := true }, .error (.line parser.lineNumber fault))
      | .ok next =>
          if rest.isEmpty then (next, .ok ())
          else next.onNextLine.readLines rest

section ReadLines

variable {parser next : Parser} {text : List Char} {rest : List (List Char)}

theorem readLines_cons_of_error {fault : LineFault} (read : parser.readLine text = .error fault) :
    parser.readLines (text :: rest) =
      ({ parser with failed := true }, .error (.line parser.lineNumber fault)) := by
  simp only [readLines, read]

theorem readLines_last_of_ok (read : parser.readLine text = .ok next) :
    parser.readLines [text] = (next, .ok ()) := by
  simp only [readLines, read, List.isEmpty_nil, if_true]

theorem readLines_cons_of_ok (read : parser.readLine text = .ok next) (more : rest ≠ []) :
    parser.readLines (text :: rest) = next.onNextLine.readLines rest := by
  have notLast : rest.isEmpty = false := List.isEmpty_eq_false_iff.mpr more
  simp only [readLines, read, notLast, if_false, Bool.false_eq_true]

theorem readLine_nil (parser : Parser) : parser.readLine [] = .ok parser := rfl

/-- The end of a line hands the bytes that were waiting for it over as one line. -/
theorem finishLine_eq (parser : Parser) :
    parser.finishLine =
      parser.cleared.readLines [lineText parser.pending.toList] := by
  cases read : parser.cleared.readLine (lineText parser.pending.toList) with
  | error fault =>
      rw [readLines_cons_of_error read]
      rw [lineText, cleared] at read
      simp only [finishLine, read]
      rfl
  | ok next =>
      rw [readLines_last_of_ok read]
      rw [lineText, cleared] at read
      simp only [finishLine, read]

theorem cleared_eq_self {parser : Parser} (nothing : parser.pending = #[]) :
    parser.cleared = parser := by
  rw [cleared, ← nothing]

theorem finish_eq {parser : Parser} (works : parser.failed = false) :
    parser.finish = parser.cleared.readLines [lineText parser.pending.toList] := by
  have notFailed : ¬parser.failed = true := by simp [works]
  rw [finish, if_neg notFailed]
  by_cases nothingPending : parser.pending.isEmpty
  · have nothing : parser.pending = #[] := Array.isEmpty_iff.mp nothingPending
    rw [if_pos nothingPending, cleared_eq_self nothing, nothing]
    exact (readLines_last_of_ok (readLine_nil parser)).symm
  · rw [if_neg nothingPending, finishLine_eq]

/-- The bytes after the beginning of a line that is still waiting for its end. -/
theorem feedBytes_finish_eq {parser : Parser} (works : parser.failed = false)
    (inside : newline ∉ parser.pending.toList) (bytes : List UInt8) :
    andThen (parser.feedBytes bytes) finish =
      parser.cleared.readLines (linesOf (parser.pending.toList ++ bytes)) := by
  -- The unfinished line is cut off the front as soon as its newline comes.
  induction bytes generalizing parser with
  | nil =>
      rw [List.append_nil, linesOf_of_notMem inside, ← finish_eq works]
      rfl
  | cons byte rest inductionHypothesis =>
      by_cases isNewline : byte = newline
      · subst isNewline
        rw [linesOf_append_newline inside]
        cases read : parser.cleared.readLine (lineText parser.pending.toList) with
        | error fault =>
            have finished := finishLine_eq parser
            rw [readLines_cons_of_error read] at finished ⊢
            rw [feedBytes_newline_of_error finished]
            rfl
        | ok next =>
            have finished := finishLine_eq parser
            rw [readLines_last_of_ok read] at finished
            rw [feedBytes_newline_of_ok finished, readLines_cons_of_ok read (linesOf_ne_nil rest)]
            have nothing : next.pending = #[] := (frame_of_readLine read).1
            have nextWorks : next.failed = false := (failed_of_finishLine finished).trans works
            have restLines := @inductionHypothesis next.onNextLine nextWorks
              (by simp [onNextLine, nothing])
            have nothingNext : next.onNextLine.pending = #[] := nothing
            rw [cleared_eq_self nothingNext, nothingNext] at restLines
            exact restLines
      · rw [feedBytes_of_ne_newline parser isNewline]
        have restLines := @inductionHypothesis
          { parser with pending := parser.pending.push byte } works
          (by simp [inside, Ne.symm isNewline])
        rw [Array.toList_push, List.append_assoc, List.singleton_append] at restLines
        exact restLines

theorem run_eq_readLines (bytes : List UInt8) :
    Parser.new.run [bytes] = Parser.new.readLines (linesOf bytes) := by
  rw [run_singleton]
  exact feedBytes_finish_eq rfl (by simp [new, startingAt]) bytes

end ReadLines

end Parser

end Clausal.Dimacs
