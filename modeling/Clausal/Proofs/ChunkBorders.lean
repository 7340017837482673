import Clausal.Dimacs.Reader

/-!
# Where chunks end

The bytes of an unfinished line are all that a parser carries from one chunk to the next, so it
makes no difference where an input is cut (`feedBytes_append`).  Feeding chunks and ending the
input is the same as feeding their concatenation, and a reading only depends on the bytes that come
before the end of the input (`run_chunks`).
-/

set_option autoImplicit false

namespace Clausal.Dimacs

namespace Parser

/-! ## One line -/

theorem readLine_skipped (parser : Parser) {text : List Char}
    (line : Line.ofText text = .skipped) : parser.readLine text = .ok parser := by
  simp only [readLine, line]

theorem readLine_clause (parser : Parser) {text : List Char} {tokens : List (List Char)}
    (line : Line.ofText text = .clause tokens) :
    parser.readLine text = (readClause tokens).map parser.addClause := by
  simp only [readLine, line]

theorem readLine_problem (parser : Parser) {text varCount clauseCount : List Char}
    (line : Line.ofText text = .problem varCount clauseCount) :
    parser.readLine text =
      if parser.header.isSome then .error (.duplicateHeader (String.ofList text))
      else (readHeader text varCount clauseCount).map fun header =>
        { parser with header := some header } := by
  simp only [readLine, line]

/-- Reading a line touches neither the unfinished line nor the marks of the parser. -/
theorem frame_of_readLine {parser next : Parser} {text : List Char}
    (read : parser.readLine text = .ok next) :
    next.pending = parser.pending ∧ next.lineNumber = parser.lineNumber ∧
      next.failed = parser.failed := by
  cases line : Line.ofText text with
  | skipped =>
      rw [readLine_skipped parser line] at read
      cases read
      exact ⟨rfl, rfl, rfl⟩
  | clause tokens =>
      rw [readLine_clause parser line] at read
      obtain ⟨lits, _, added⟩ := map_eq_ok_iff.mp read
      rw [← added, addClause]
      split
      · exact ⟨rfl, rfl, rfl⟩
      · exact ⟨rfl, rfl, rfl⟩
  | problem varCount clauseCount =>
      rw [readLine_problem parser line] at read
      split at read
      · cases read
      · obtain ⟨header, _, declared⟩ := map_eq_ok_iff.mp read
        rw [← declared]
        exact ⟨rfl, rfl, rfl⟩

theorem failed_of_finishLine {parser next : Parser}
    (finished : parser.finishLine = (next, .ok ())) : next.failed = parser.failed := by
  rw [finishLine] at finished
  split at finished
  · next after read =>
      cases finished
      exact (frame_of_readLine read).2.2
  · cases finished

/-! ## Bytes in order -/

def onNextLine (parser : Parser) : Parser := { parser with lineNumber := parser.lineNumber + 1 }

section FeedBytes

variable {parser next : Parser}

theorem feedBytes_of_ne_newline (parser : Parser) {byte : UInt8} (other : byte ≠ newline)
    (rest : List UInt8) :
    parser.feedBytes (byte :: rest) =
      { parser with pending := parser.pending.push byte }.feedBytes rest := by
  rw [feedBytes, if_neg other]

theorem feedBytes_newline_of_ok (finished : parser.finishLine = (next, .ok ()))
    (rest : List UInt8) :
    parser.feedBytes (newline :: rest) = next.onNextLine.feedBytes rest := by
  simp only [feedBytes, finished, if_true]
  rfl

theorem feedBytes_newline_of_error {error : ParseError}
    (finished : parser.finishLine = (next, .error error)) (rest : List UInt8) :
    parser.feedBytes (newline :: rest) = (next, .error error) := by
  simp only [feedBytes, finished, if_true]

def andThen (outcome : Parser × Except ParseError Unit)
    (goOn : Parser → Parser × Except ParseError Unit) : Parser × Except ParseError Unit :=
  match outcome with
  | (next, .ok ()) => goOn next
  | (next, .error error) => (next, .error error)

theorem feedBytes_append (parser : Parser) (front back : List UInt8) :
    parser.feedBytes (front ++ back) = andThen (parser.feedBytes front) (·.feedBytes back) := by
  induction front generalizing parser with
  | nil => rfl
  | cons byte rest inductionHypothesis =>
      rw [List.cons_append]
      by_cases isNewline : byte = newline
      · subst isNewline
        cases finished : parser.finishLine with
        | mk next answer =>
            cases answer with
            | error error =>
                rw [feedBytes_newline_of_error finished, feedBytes_newline_of_error finished]
                rfl
            | ok done =>
                rw [feedBytes_newline_of_ok finished, feedBytes_newline_of_ok finished]
                exact inductionHypothesis _
      · rw [feedBytes_of_ne_newline parser isNewline, feedBytes_of_ne_newline parser isNewline]
        exact inductionHypothesis _

theorem failed_of_feedBytes {chunk : List UInt8}
    (fed : parser.feedBytes chunk = (next, .ok ())) : next.failed = parser.failed := by
  induction chunk generalizing parser with
  | nil =>
      cases fed
      rfl
  | cons byte rest inductionHypothesis =>
      by_cases isNewline : byte = newline
      · subst isNewline
        cases finished : parser.finishLine with
        | mk after answer =>
            cases answer with
            | error error =>
                rw [feedBytes_newline_of_error finished] at fed
                cases fed
            | ok done =>
                rw [feedBytes_newline_of_ok finished] at fed
                have lineWorks : after.failed = parser.failed := failed_of_finishLine finished
                have restWorks := inductionHypothesis fed
                exact restWorks.trans lineWorks
      · rw [feedBytes_of_ne_newline parser isNewline] at fed
        have restWorks := inductionHypothesis fed
        exact restWorks

end FeedBytes

/-! ## Chunks in order -/

/-- Feeds chunks up to the first error, and ends the input if there was none. -/
def run (parser : Parser) : List (List UInt8) → Parser × Except ParseError Unit
  | [] => parser.finish
  | chunk :: rest => andThen (parser.feed chunk) (·.run rest)

theorem run_of_failed {parser : Parser} (failed : parser.failed = true)
    (chunks : List (List UInt8)) : parser.run chunks = (parser, .error .previousError) := by
  cases chunks with
  | nil => rw [run, finish, if_pos failed]
  | cons chunk rest =>
      rw [run, feed, if_pos failed]
      rfl

theorem run_eq_feedBytes {parser : Parser} (works : parser.failed = false)
    (chunks : List (List UInt8)) :
    parser.run chunks = andThen (parser.feedBytes chunks.flatten) finish := by
  induction chunks generalizing parser with
  | nil => rfl
  | cons chunk rest inductionHypothesis =>
      rw [run, List.flatten_cons, feedBytes_append, feed, works, if_neg (by decide)]
      cases fed : parser.feedBytes chunk with
      | mk next answer =>
          cases answer with
          | error error => rfl
          | ok done =>
              have nextWorks : next.failed = false := (failed_of_feedBytes fed).trans works
              exact inductionHypothesis nextWorks

theorem run_eq_run_flatten (parser : Parser) (chunks : List (List UInt8)) :
    parser.run chunks = parser.run [chunks.flatten] := by
  cases failed : parser.failed with
  | true => rw [run_of_failed failed, run_of_failed failed]
  | false =>
      rw [run_eq_feedBytes failed, run_eq_feedBytes failed, List.flatten_cons, List.flatten_nil,
        List.append_nil]

theorem run_singleton (bytes : List UInt8) :
    Parser.new.run [bytes] = andThen (Parser.new.feedBytes bytes) finish := by
  rw [run_eq_feedBytes rfl, List.flatten_singleton]

end Parser

/-! ## Pieces of an input -/

theorem flatten_chunksOf (data : List UInt8) : (chunksOf data).flatten = data := by
  fun_induction chunksOf data with
  | case1 => rfl
  | case2 byte rest inductionHypothesis =>
      rw [List.flatten_cons, inductionHypothesis, List.take_append_drop]

/-- The bytes that come before the end of the input, which an empty piece marks too. -/
def delivered (pieces : List (List UInt8)) : List UInt8 :=
  (pieces.takeWhile fun data => !data.isEmpty).flatten

theorem chunks_bytes (pieces : List (List UInt8)) :
    (chunks (pieces.map .bytes)).1.flatten = delivered pieces ∧
      (chunks (pieces.map .bytes)).2 = none := by
  induction pieces with
  | nil => exact ⟨rfl, rfl⟩
  | cons data rest inductionHypothesis =>
      cases data with
      | nil => exact ⟨rfl, rfl⟩
      | cons byte others =>
          refine ⟨?_, inductionHypothesis.2⟩
          have delivers : delivered ((byte :: others) :: rest) =
              byte :: others ++ delivered rest := rfl
          rw [delivers, ← inductionHypothesis.1, List.map_cons, chunks, List.flatten_append,
            flatten_chunksOf]

def passBy : Visitor Unit Empty := fun _ parser => ((), .ok parser)

def readOutcome : Parser × Except ParseError Unit → Except (ReadError Empty) Parser
  | (parser, .ok ()) => .ok parser
  | (_, .error error) => .error (.parse error)

theorem feedChunks_passBy (parser : Parser) (chunks : List (List UInt8)) :
    (match (feedChunks passBy () parser chunks).2 with
      | .ok fed => readOutcome fed.finish
      | .error error => .error error) = readOutcome (parser.run chunks) := by
  induction chunks generalizing parser with
  | nil => rfl
  | cons chunk rest inductionHypothesis =>
      rw [feedChunks, Parser.run]
      rcases parser.feed chunk with ⟨fed, error | done⟩
      · rfl
      · exact inductionHypothesis fed

theorem readWith_passBy (input : List Piece) (ends : (chunks input).2 = none) :
    (readWith passBy () input).2 = readOutcome (Parser.new.run (chunks input).1) := by
  rw [← feedChunks_passBy, readWith, ends]
  rcases feedChunks passBy () .new (chunks input).1 with ⟨_, error | parser⟩
  · rfl
  · rcases finished : parser.finish with ⟨last, error | done⟩
    · simp only [finished]
      rfl
    · simp only [finished]
      rfl

theorem readWith_passBy_bytes (pieces : List (List UInt8)) :
    (readWith passBy () (pieces.map .bytes)).2 =
      readOutcome (Parser.new.run [delivered pieces]) := by
  obtain ⟨sameBytes, ends⟩ := chunks_bytes pieces
  rw [readWith_passBy _ ends, Parser.run_eq_run_flatten, sameBytes]

theorem parse_bytes (pieces : List (List UInt8)) :
    parse (pieces.map .bytes) =
      (readOutcome (Parser.new.run [delivered pieces])).map fun parser => parser.takeFormula.1 := by
  rw [← readWith_passBy_bytes]
  rfl

theorem delivered_singleton (data : List UInt8) : delivered [data] = data := by
  cases data with
  | nil => rfl
  | cons byte rest => exact List.append_nil _

theorem readWith_passBy_piece (bytes : List UInt8) :
    (readWith passBy () [.bytes bytes]).2 = readOutcome (Parser.new.run [bytes]) := by
  have asPieces := readWith_passBy_bytes [bytes]
  rwa [delivered_singleton] at asPieces

theorem parse_piece (bytes : List UInt8) :
    parse [.bytes bytes] =
      (readOutcome (Parser.new.run [bytes])).map fun parser => parser.takeFormula.1 := by
  rw [← readWith_passBy_piece]
  rfl

theorem parse_of_run_ok {bytes : List UInt8} {last : Parser}
    (isRun : Parser.new.run [bytes] = (last, .ok ())) :
    parse [.bytes bytes] = .ok last.takeFormula.1 := by
  rw [parse_piece, isRun]
  rfl

theorem parse_of_run_error {bytes : List UInt8} {last : Parser} {error : ParseError}
    (isRun : Parser.new.run [bytes] = (last, .error error)) :
    parse [.bytes bytes] = .error (.parse error) := by
  rw [parse_piece, isRun]
  rfl

/-- A run on chunks is the run on their concatenation, with the same parser at the end and the same
first error, and what is parsed of pieces depends only on the bytes before the end of the input. -/
theorem run_chunks (chunks pieces : List (List UInt8)) :
    Parser.new.run chunks = Parser.new.run [chunks.flatten] ∧
      parse (pieces.map .bytes) = parse [.bytes (delivered pieces)] := by
  refine ⟨Parser.run_eq_run_flatten .new chunks, ?_⟩
  rw [parse_bytes, parse_piece]

end Clausal.Dimacs
