import Clausal.Dimacs.Writer
import Clausal.Proofs.AsciiText
import Clausal.Proofs.Numerals
import Clausal.Proofs.WordLines

/-!
# The text of a formula

What is written for a formula are lines of words: one for the header, and one for each clause with
the integers of its literals and a zero.  It is written piece by piece, which comes to the same as
writing it in one piece (`Sink.putFormula_eq`).
-/

set_option autoImplicit false

namespace Clausal

/-! ## Numerals as words -/

section Words

variable {c : Char} {n : Int}

theorem Numeral.mem_integer (member : c ∈ integer n) : c.isDigit = true ∨ c = '-' := by
  cases n with
  | ofNat m => exact .inl ((natural_spec m).1.isDigit c member)
  | negSucc m =>
      rcases List.mem_cons.mp member with isMinus | inDigits
      · exact .inr isMinus
      · exact .inl ((natural_spec (m + 1)).1.isDigit c inDigits)

theorem isBlank_of_isDigit (isDigit : c.isDigit = true) : isBlank c = false := by
  have inRange := Numeral.isDigit_iff.mp isDigit
  simp only [isBlank, blankRanges, List.any_cons, List.any_nil, Bool.or_eq_false_iff,
    Bool.and_eq_false_iff, decide_eq_false_iff_not, and_true]
  omega

theorem isWord_integer (n : Int) : IsWord (Numeral.integer n) where
  ne_nil := by
    cases n with
    | ofNat m => exact (Numeral.natural_spec m).1.ne_nil
    | negSucc m => exact List.cons_ne_nil _ _
  isBlank_eq_false := by
    intro c member
    rcases Numeral.mem_integer member with isDigit | isMinus
    · exact isBlank_of_isDigit isDigit
    · subst isMinus
      decide
  ascii := by
    intro c member
    rcases Numeral.mem_integer member with isDigit | isMinus
    · have inRange := Numeral.isDigit_iff.mp isDigit
      omega
    · subst isMinus
      decide

theorem isWord_natural (n : Nat) : IsWord (Numeral.natural n) := isWord_integer (.ofNat n)

/-- No numeral starts a comment or a problem line. -/
theorem head?_integer_ne (letter : c.isDigit = false) (notMinus : c ≠ '-') :
    (Numeral.integer n).head? ≠ some c := by
  intro isHead
  rcases Numeral.mem_integer (List.mem_of_mem_head? isHead) with isDigit | isMinus
  · rw [letter] at isDigit
    cases isDigit
  · exact notMinus isMinus

theorem Numeral.integer_zero : integer 0 = ['0'] := by
  have zero : natural 0 = ['0'] := by
    rw [natural, if_pos (by decide)]
    rfl
  exact zero

end Words

namespace Dimacs

/-! ## Lines of a written formula -/

def headerWords (header : Header) : List (List Char) :=
  [['p'], ['c', 'n', 'f'], Numeral.natural header.varCount, Numeral.natural header.clauseCount]

def clauseWords (lits : List Lit) : List (List Char) :=
  lits.map Lit.text ++ [Numeral.integer 0]

def formulaWords (formula : Formula) : List (List (List Char)) :=
  headerWords (headerOf formula) :: formula.clauses.map clauseWords

theorem isWord_headerWords (header : Header) : ∀ word ∈ headerWords header, IsWord word := by
  intro word member
  simp only [headerWords, List.mem_cons, List.not_mem_nil, or_false] at member
  rcases member with isP | isCnf | isVars | isClauses
  · subst isP
    exact isWord_of_all (List.cons_ne_nil _ _) rfl
  · subst isCnf
    exact isWord_of_all (List.cons_ne_nil _ _) rfl
  · subst isVars
    exact isWord_natural header.varCount
  · subst isClauses
    exact isWord_natural header.clauseCount

theorem isWord_clauseWords (lits : List Lit) : ∀ word ∈ clauseWords lits, IsWord word := by
  intro word member
  rcases List.mem_append.mp member with isLit | isZero
  · obtain ⟨l, _, isText⟩ := List.mem_map.mp isLit
    subst isText
    exact isWord_integer l.toInt
  · rw [List.mem_singleton.mp isZero]
    exact isWord_integer 0

theorem isWord_formulaWords (formula : Formula) :
    ∀ words ∈ formulaWords formula, ∀ word ∈ words, IsWord word := by
  intro words member
  rcases List.mem_cons.mp member with isHeader | isClause
  · subst isHeader
    exact isWord_headerWords (headerOf formula)
  · obtain ⟨lits, _, isLine⟩ := List.mem_map.mp isClause
    subst isLine
    exact isWord_clauseWords lits

theorem headerText_eq (header : Header) :
    headerText header = spaced (headerWords header) ++ ['\n'] := by
  have start : "p cnf ".toList = ['p', ' ', 'c', 'n', 'f', ' '] := by decide
  unfold headerText
  rw [start, headerWords, spaced, List.intercalate_cons_cons, List.intercalate_cons_cons,
    List.intercalate_cons_cons, List.intercalate_singleton]
  simp only [List.append_assoc, List.cons_append, List.nil_append]

theorem clauseText_eq (lits : List Lit) :
    clauseText lits = spaced (clauseWords lits) ++ ['\n'] := by
  induction lits with
  | nil =>
      rw [clauseWords, List.map_nil, List.nil_append, spaced, List.intercalate_singleton,
        Numeral.integer_zero]
      rfl
  | cons l rest inductionHypothesis =>
      have firstWord : clauseWords (l :: rest) = l.text :: clauseWords rest := rfl
      have more : clauseWords rest ≠ [] := by simp [clauseWords]
      have firstText : clauseText (l :: rest) = l.text ++ ' ' :: clauseText rest := by
        simp only [clauseText, List.flatMap_cons, List.append_assoc, List.cons_append,
          List.nil_append]
      rw [firstText, firstWord, spaced_cons _ more, inductionHypothesis, List.append_assoc,
        List.cons_append]

theorem formulaText_eq (formula : Formula) :
    formulaText formula = textOf (formulaWords formula) := by
  have asLine : clauseText = fun lits => spaced (clauseWords lits) ++ ['\n'] :=
    funext clauseText_eq
  rw [formulaText, formulaWords, textOf, List.flatMap_cons, headerText_eq, List.flatMap_map, asLine]

/-! ## The writer -/

namespace Sink

variable (sink : Sink)

theorem put_nil : sink.put [] = .ok sink := by
  obtain ⟨room, written⟩ := sink
  cases room with
  | none => rw [put, String.ofList_nil, String.append_empty]
  | some room =>
      simp only [put, List.length_nil, Nat.zero_le, if_true, Nat.sub_zero]
      rw [String.ofList_nil, String.append_empty]

/-- Writing one text after another is writing them as one text, also where the room ends in the
middle of either. -/
theorem put_append (front back : List Char) :
    sink.put (front ++ back) = (sink.put front).bind fun next => next.put back := by
  obtain ⟨room, written⟩ := sink
  cases room with
  | none =>
      simp only [put, Except.bind]
      rw [String.ofList_append, String.append_assoc]
  | some room =>
      simp only [put]
      by_cases frontFits : front.length ≤ room
      · rw [if_pos frontFits, List.length_append, List.take_append,
          List.take_of_length_le frontFits, String.ofList_append, String.ofList_append,
          ← String.append_assoc, ← String.append_assoc, Nat.sub_add_eq]
        simp only [Except.bind]
        by_cases backFits : back.length ≤ room - front.length
        · rw [if_pos backFits, if_pos (by omega)]
        · rw [if_neg backFits, if_neg (by omega)]
      · rw [if_neg frontFits, if_neg (by rw [List.length_append]; omega),
          List.take_append_of_le_length (by omega)]
        rfl

theorem putLits_eq (lits : List Lit) :
    sink.putLits lits = sink.put (lits.flatMap fun l => l.text ++ [' ']) := by
  induction lits generalizing sink with
  | nil => exact (put_nil sink).symm
  | cons l rest inductionHypothesis =>
      rw [putLits, List.flatMap_cons, put_append, put_append]
      cases sink.put l.text with
      | error full => rfl
      | ok next =>
          simp only [Except.bind]
          cases next.put [' '] with
          | error full => rfl
          | ok after => exact inductionHypothesis after

theorem putClauses_eq (clauses : List (List Lit)) :
    sink.putClauses clauses = sink.put (clauses.flatMap clauseText) := by
  induction clauses generalizing sink with
  | nil => exact (put_nil sink).symm
  | cons lits rest inductionHypothesis =>
      rw [putClauses, putLits_eq, List.flatMap_cons, put_append, clauseText, put_append]
      cases sink.put (lits.flatMap fun l => l.text ++ [' ']) with
      | error full => rfl
      | ok next =>
          simp only [Except.bind]
          cases next.put ['0', '\n'] with
          | error full => rfl
          | ok after => exact inductionHypothesis after

theorem putFormula_eq (formula : Formula) :
    sink.putFormula formula = sink.put (formulaText formula) := by
  rw [putFormula, putHeader, formulaText, put_append]
  cases sink.put (headerText (headerOf formula)) with
  | error full => rfl
  | ok next => exact putClauses_eq next formula.clauses

end Sink

def writtenBytes (formula : Formula) : Except Full (List UInt8) :=
  ((Sink.withRoom none).putFormula formula).map fun sink => Utf8.encode sink.written

theorem putFormula_unlimited (formula : Formula) :
    (Sink.withRoom none).putFormula formula = .ok ⟨none, String.ofList (formulaText formula)⟩ := by
  rw [Sink.putFormula_eq]
  exact congrArg (fun written => Except.ok (Sink.mk none written)) String.empty_append

theorem writtenBytes_eq (formula : Formula) :
    writtenBytes formula = .ok (Utf8.asciiBytes (textOf (formulaWords formula))) := by
  have ascii := ascii_textOf (isWord_formulaWords formula)
  rw [writtenBytes, putFormula_unlimited, formulaText_eq]
  exact congrArg Except.ok (Utf8.encode_ascii ascii)

end Dimacs

end Clausal
