import Clausal.Proofs.AcceptedLines
import Clausal.Proofs.AsciiText

/-!
# Integers past the last variable

A token of a clause is read as a word of 64 bits before it is compared with the number of the last
variable.  An integer that stands for no variable is therefore reported as too large as long as it
is such a word, and as no literal at all when it is longer (`run_oversized`).
-/

set_option autoImplicit false

namespace Clausal

theorem Numeral.Signed.unique {token : List Char} {n m : Int} (denotes : Signed token n)
    (same : Signed token m) : n = m := by
  rw [← integer?_eq_some_iff] at denotes same
  exact Option.some.inj (denotes.symm.trans same)

namespace Dimacs

/-- The first token of a clause that is not a literal is an integer past the last variable. -/
structure Oversized (text token : List Char) (n : Int) : Prop where
  notComment : text.head? ≠ some 'c'
  notProblem : text.head? ≠ some 'p'
  tokens : ∃ numerals rest, fields text = numerals ++ token :: rest ∧
    ∀ numeral ∈ numerals, NamesLit numeral
  denotes : Numeral.Signed token n
  large : 2 ^ 28 < n.natAbs

def oversizedFault (token : List Char) (n : Int) : LineFault :=
  if -2 ^ 63 ≤ n ∧ n < 2 ^ 63 then .literalTooLarge (String.ofList token)
  else .invalidLiteral (String.ofList token)

theorem tokenFault_oversized {token : List Char} {n : Int} (denotes : Numeral.Signed token n)
    (large : 2 ^ 28 < n.natAbs) (rest : List (List Char)) :
    TokenFault token rest (oversizedFault token n) := by
  rw [oversizedFault]
  split
  · next inRange => exact .large denotes inRange large
  · next outside =>
      refine .invalid ?_
      intro m denotesToo inRange
      rw [← denotes.unique denotesToo] at inRange
      exact outside inRange

/-- Literals before a faulty token do not hide its fault. -/
theorem readClause_append_fault {numerals rest : List (List Char)} {token : List Char}
    {fault : LineFault} (named : ∀ numeral ∈ numerals, NamesLit numeral)
    (bad : TokenFault token rest fault) :
    readClause (numerals ++ token :: rest) = .error fault := by
  induction numerals with
  | nil => exact readClause_fault bad
  | cons numeral others inductionHypothesis =>
      obtain ⟨l, denotes⟩ := namesLit_iff.mp (named numeral List.mem_cons_self)
      have othersFail := inductionHypothesis fun other member =>
        named other (List.mem_cons_of_mem numeral member)
      rw [List.cons_append, readClause_lit denotes, othersFail]
      rfl

theorem Oversized.readLine {text token : List Char} {n : Int} (oversized : Oversized text token n)
    (parser : Parser) : parser.readLine text = .error (oversizedFault token n) := by
  obtain ⟨numerals, rest, split, named⟩ := oversized.tokens
  have nonempty : text ≠ [] := by
    rintro rfl
    have noFields : fields [] = [] := rfl
    rw [noFields] at split
    simp at split
  have bad := tokenFault_oversized oversized.denotes oversized.large rest
  rw [Parser.readLine_clause parser
    (ofText_clause nonempty oversized.notComment oversized.notProblem), split,
    readClause_append_fault named bad]
  rfl

/-- The first line with a fault is reported with its number, whatever comes after it. -/
theorem readLines_of_fault {earlier front back : List (List Char)} {text : List Char}
    {fault : LineFault} {parser : Parser} (holds : Holds earlier parser)
    (wellFormed : WellFormed (earlier ++ front))
    (fails : ∀ other : Parser, other.readLine text = .error fault) :
    (parser.readLines (front ++ text :: back)).2 =
      .error (.line (parser.lineNumber + front.length) fault) := by
  induction front generalizing earlier parser with
  | nil =>
      rw [List.nil_append, Parser.readLines_cons_of_error (fails parser)]
      rfl
  | cons line rest inductionHypothesis =>
      have conforms := wellFormed earlier line rest rfl
      obtain ⟨_, read⟩ := holds.exists_readLine conforms
      rcases holds.step line with ⟨next, taken, _, nextHolds⟩ | ⟨_, refused, _⟩
      · rw [List.append_cons] at wellFormed
        have onNextHolds : Holds (earlier ++ [line]) next.onNextLine :=
          nextHolds.congr rfl rfl rfl rfl
        have restFails := inductionHypothesis onNextHolds wellFormed
        have sameNumber := (Parser.frame_of_readLine taken).2.1
        rw [List.cons_append, Parser.readLines_cons_of_ok taken (by simp), restFails,
          Parser.onNextLine, List.length_cons, sameNumber, Nat.add_assoc, Nat.add_comm 1]
      · rw [read] at refused
        cases refused

/-- A clause that holds an integer past the last variable after literals fails with this token and
its line.  The token is reported as too large if the integer is a word of 64 bits, and only then. -/
theorem run_oversized {chunks : List (List UInt8)} {front back : List (List Char)}
    {text token : List Char} {n : Int} (lines : linesOf chunks.flatten = front ++ text :: back)
    (wellFormed : WellFormed front) (oversized : Oversized text token n) :
    (Parser.new.run chunks).2 = .error (.line (front.length + 1)
      (if -2 ^ 63 ≤ n ∧ n < 2 ^ 63 then .literalTooLarge (String.ofList token)
        else .invalidLiteral (String.ofList token))) := by
  rw [Parser.run_eq_run_flatten, Parser.run_eq_readLines, lines, Nat.add_comm]
  exact readLines_of_fault holds_new wellFormed oversized.readLine

/-- A chunk ends inside the token, in a line after a comment. -/
theorem run_oversized_cut_token :
    (Parser.new.run [Utf8.asciiBytes "c 1\n1 -26843".toList, Utf8.asciiBytes "5457 x\n".toList]).2 =
      .error (.line 2 (.literalTooLarge "-268435457")) := by
  have wellFormed : WellFormed ["c 1".toList] := wellFormed_nil.append_singleton (.comment rfl)
  have named : NamesLit "1".toList :=
    ⟨1, Numeral.integer?_eq_some_iff.mp (by decide), by decide, by decide⟩
  have oversized : Oversized "1 -268435457 x".toList "-268435457".toList (-268435457) := {
    notComment := by decide
    notProblem := by decide
    tokens := ⟨["1".toList], ["x".toList], by decide +kernel, by simpa using named⟩
    denotes := Numeral.integer?_eq_some_iff.mp (by decide)
    large := by decide }
  have lines : linesOf [Utf8.asciiBytes "c 1\n1 -26843".toList,
      Utf8.asciiBytes "5457 x\n".toList].flatten =
        ["c 1".toList] ++ "1 -268435457 x".toList :: [[]] := by decide +kernel
  exact run_oversized lines wellFormed oversized

/-- The least positive integer that is not a word of 64 bits is reported as no literal. -/
theorem run_oversized_past_word :
    Oversized "9223372036854775808".toList "9223372036854775808".toList (2 ^ 63) ∧
    (Parser.new.run [Utf8.asciiBytes "9223372036854775808".toList]).2 =
      .error (.line 1 (.invalidLiteral "9223372036854775808")) := by
  refine ⟨⟨by decide, by decide, ⟨[], [], by decide +kernel, by simp⟩, ?_, by decide⟩, ?_⟩
  · exact Numeral.integer?_eq_some_iff.mp (by decide)
  · decide +kernel

end Dimacs

end Clausal
