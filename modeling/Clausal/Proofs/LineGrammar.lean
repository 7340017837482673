import Mathlib.Data.List.Forall2
import Clausal.Dimacs.Line
import Clausal.Proofs.LitNumbers
import Clausal.Proofs.Numerals

/-!
# The grammar of DIMACS lines

A line is empty, a comment, a problem line that is passed over, the one problem line that counts,
or a clause (`Conforms`).  Whether a line conforms depends on the lines before it only through the
question whether one of them is the problem line that counts.  A line that does not conform has a
fault (`Offends`).
-/

set_option autoImplicit false

namespace Clausal

/-- The longest runs of characters that are not blank. -/
def fields (text : List Char) : List (List Char) :=
  (text.splitOnP isBlank).filter fun field => !field.isEmpty

theorem splitOnP_of_noBlank {run : List Char} (noBlank : ∀ c ∈ run, isBlank c = false) :
    run.reverse.splitOnP isBlank = [run.reverse] := by
  apply List.splitOnP_eq_singleton
  intro c member
  exact noBlank c (List.mem_reverse.mp member)

theorem wordsAfter_eq_fields {word : List Char} (noBlank : ∀ c ∈ word, isBlank c = false)
    (text : List Char) : wordsAfter word text = fields (word.reverse ++ text) := by
  induction text generalizing word with
  | nil =>
      rw [List.append_nil, fields, splitOnP_of_noBlank noBlank]
      cases word with
      | nil => rfl
      | cons c rest => simp [wordsAfter]
  | cons c rest inductionHypothesis =>
      rw [wordsAfter]
      by_cases blank : isBlank c = true
      · have afterBlank : wordsAfter [] rest = fields rest := inductionHypothesis (by simp)
        rw [if_pos blank, fields, List.splitOnP_append_cons _ _ blank, splitOnP_of_noBlank noBlank,
          afterBlank]
        cases word with
        | nil => rfl
        | cons d others => simp [fields]
      · have stillNoBlank : ∀ d ∈ c :: word, isBlank d = false := by
          intro d member
          rcases List.mem_cons.mp member with rfl | old
          · exact Bool.eq_false_iff.mpr blank
          · exact noBlank d old
        rw [if_neg blank, inductionHypothesis stillNoBlank, List.reverse_cons, List.append_assoc,
          List.singleton_append]

theorem words_eq_fields (text : List Char) : words text = fields text :=
  wordsAfter_eq_fields (by simp) text

namespace Dimacs

/-! ## Lines that conform -/

/-- Too few fields, or another word where `cnf` stands in the problem line that counts. -/
def LacksCounts (text : List Char) : Prop :=
  (fields text).length < 4 ∨ (fields text)[1]? ≠ some ['c', 'n', 'f']

def IsProblem (text : List Char) : Prop := text.head? = some 'p' ∧ ¬LacksCounts text

/-- A token that stands for a nonzero integer of at most the number of the last variable. -/
def NamesLit (token : List Char) : Prop :=
  ∃ n : Int, Numeral.Signed token n ∧ 1 ≤ n.natAbs ∧ n.natAbs ≤ 2 ^ 28

def Denotes (token : List Char) (l : Lit) : Prop := Numeral.Signed token l.toInt

/-- What may stand after the literals of a clause. -/
def Closes (closing : List (List Char)) : Prop :=
  closing = [] ∨ ∃ zero, closing = [zero] ∧ Numeral.Signed zero 0

inductive Conforms (earlier : List (List Char)) (text : List Char) : Prop
  | empty (nothing : text = [])
  | comment (start : text.head? = some 'c')
  | skippedProblem (start : text.head? = some 'p') (lacking : LacksCounts text)
  | problem (isProblem : IsProblem text) (first : ∀ line ∈ earlier, ¬IsProblem line)
      (varCount : ∃ field n, (fields text)[2]? = some field ∧ Numeral.Unsigned field n ∧
        n < 2 ^ 64 ∧ n ≤ 2 ^ 28)
      (clauseCount : ∃ field n, (fields text)[3]? = some field ∧ Numeral.Unsigned field n ∧
        n < 2 ^ 64)
  | clause (notComment : text.head? ≠ some 'c') (notProblem : text.head? ≠ some 'p')
      (tokens : ∃ numerals closing, fields text = numerals ++ closing ∧
        (∀ token ∈ numerals, NamesLit token) ∧ Closes closing)

inductive Writes (text : List Char) : List Lit → Prop
  | clause {numerals closing : List (List Char)} {lits : List Lit}
      (notComment : text.head? ≠ some 'c') (notProblem : text.head? ≠ some 'p')
      (split : fields text = numerals ++ closing)
      (denote : List.Forall₂ Denotes numerals lits)
      (closes : Closes closing) : Writes text lits
  | other (start : text.head? = some 'c' ∨ text.head? = some 'p') : Writes text []

/-! ## Faults -/

/-- Why a token cannot stand in a clause before the tokens `rest`. -/
inductive TokenFault (token : List Char) (rest : List (List Char)) : LineFault → Prop
  | invalid (noWord : ∀ n, Numeral.Signed token n → ¬(-2 ^ 63 ≤ n ∧ n < 2 ^ 63)) :
      TokenFault token rest (.invalidLiteral (String.ofList token))
  | zero (isZero : Numeral.Signed token 0) (more : rest ≠ []) : TokenFault token rest .zeroLiteral
  | large {n : Int} (denotes : Numeral.Signed token n) (inRange : -2 ^ 63 ≤ n ∧ n < 2 ^ 63)
      (tooLarge : 2 ^ 28 < n.natAbs) :
      TokenFault token rest (.literalTooLarge (String.ofList token))

inductive Offends (earlier : List (List Char)) (text : List Char) : LineFault → Prop
  | duplicate (isProblem : IsProblem text) (second : ∃ line ∈ earlier, IsProblem line) :
      Offends earlier text (.duplicateHeader (String.ofList text))
  | noCount (isProblem : IsProblem text) (first : ∀ line ∈ earlier, ¬IsProblem line)
      (noWord : ∃ field, ((fields text)[2]? = some field ∨ (fields text)[3]? = some field) ∧
        ∀ n, Numeral.Unsigned field n → ¬n < 2 ^ 64) :
      Offends earlier text (.invalidHeader (String.ofList text))
  | largeCount {field : List Char} {n : Nat} (isProblem : IsProblem text)
      (first : ∀ line ∈ earlier, ¬IsProblem line) (isVarCount : (fields text)[2]? = some field)
      (denotes : Numeral.Unsigned field n) (tooLarge : 2 ^ 28 < n) :
      Offends earlier text (.literalTooLarge (String.ofList field))
  | token {numerals : List (List Char)} {token : List Char} {rest : List (List Char)}
      {fault : LineFault} (notComment : text.head? ≠ some 'c') (notProblem : text.head? ≠ some 'p')
      (split : fields text = numerals ++ token :: rest) (good : ∀ t ∈ numerals, NamesLit t)
      (bad : TokenFault token rest fault) : Offends earlier text fault

/-! ## Kinds of lines -/

section Kinds

variable {text : List Char}

theorem ofText_comment (start : text.head? = some 'c') : Line.ofText text = .skipped := by
  cases text with
  | nil => cases start
  | cons c rest =>
      cases start
      rfl

theorem ofText_skippedProblem (start : text.head? = some 'p') (lacking : LacksCounts text) :
    Line.ofText text = .skipped := by
  cases text with
  | nil => cases start
  | cons c rest =>
      cases start
      rw [Line.ofText, words_eq_fields]
      split
      · next first varCount clauseCount others split =>
          rw [LacksCounts, split] at lacking
          rcases lacking with short | otherWord
          · simp only [List.length_cons] at short
            omega
          · exact absurd rfl otherWord
      · rfl

theorem ofText_problem (isProblem : IsProblem text) :
    ∃ varCount clauseCount, (fields text)[2]? = some varCount ∧
      (fields text)[3]? = some clauseCount ∧ Line.ofText text = .problem varCount clauseCount := by
  obtain ⟨start, notLacking⟩ := isProblem
  rw [LacksCounts, not_or, not_lt, not_ne_iff] at notLacking
  obtain ⟨long, isCnf⟩ := notLacking
  obtain ⟨first, second, varCount, clauseCount, others, split⟩ :
      ∃ first second varCount clauseCount others,
        fields text = first :: second :: varCount :: clauseCount :: others := by
    match fields text, long with
    | first :: second :: varCount :: clauseCount :: others, _ => exact ⟨_, _, _, _, _, rfl⟩
  rw [split] at isCnf ⊢
  obtain rfl : second = ['c', 'n', 'f'] := Option.some.inj isCnf
  refine ⟨varCount, clauseCount, rfl, rfl, ?_⟩
  cases text with
  | nil => cases start
  | cons c rest =>
      cases start
      rw [Line.ofText, words_eq_fields, split]
      rfl

theorem ofText_clause (nonempty : text ≠ []) (notComment : text.head? ≠ some 'c')
    (notProblem : text.head? ≠ some 'p') : Line.ofText text = .clause (fields text) := by
  rw [Line.ofText, words_eq_fields]
  · exact nonempty
  · rintro rest rfl
    exact notComment rfl
  · rintro rest rfl
    exact notProblem rfl

end Kinds

/-! ## Tokens of a clause -/

theorem namesLit_iff {token : List Char} : NamesLit token ↔ ∃ l, Denotes token l := by
  constructor
  · rintro ⟨n, denotes, inRange⟩
    cases named : Lit.ofInt? n with
    | none => exact absurd inRange (Lit.ofInt?_eq_none_iff.mp named)
    | some l =>
        rw [← Lit.ofInt?_eq_some_iff.mp named] at denotes
        exact ⟨l, denotes⟩
  · rintro ⟨l, denotes⟩
    exact ⟨l.toInt, denotes, l.natAbs_toInt_pos, l.natAbs_toInt_le⟩

theorem exists_denoted {numerals : List (List Char)} (named : ∀ token ∈ numerals, NamesLit token) :
    ∃ lits, List.Forall₂ Denotes numerals lits := by
  induction numerals with
  | nil => exact ⟨[], .nil⟩
  | cons token rest inductionHypothesis =>
      obtain ⟨l, denotes⟩ := namesLit_iff.mp (named token (by simp))
      obtain ⟨lits, denote⟩ := inductionHypothesis fun t member => named t (by simp [member])
      exact ⟨l :: lits, .cons denotes denote⟩

theorem namesLit_of_denoted {numerals : List (List Char)} {lits : List Lit}
    (denote : List.Forall₂ Denotes numerals lits) : ∀ token ∈ numerals, NamesLit token := by
  induction denote with
  | nil => simp
  | @cons token l _ _ denotes _ inductionHypothesis =>
      intro t member
      rcases List.mem_cons.mp member with rfl | old
      · exact namesLit_iff.mpr ⟨l, denotes⟩
      · exact inductionHypothesis t old

theorem signedWord?_of_signed {token : List Char} {n : Int} (denotes : Numeral.Signed token n)
    (small : n.natAbs ≤ 2 ^ 28) : Numeral.signedWord? token = some n :=
  Numeral.signedWord?_eq_some_iff.mpr ⟨denotes, by omega, by omega⟩

section Tokens

variable {token : List Char} {rest : List (List Char)}

theorem readClause_lit {l : Lit} (denotes : Denotes token l) :
    readClause (token :: rest) = (readClause rest).map (l :: ·) := by
  have notZero : l.toInt ≠ 0 := by
    have positive := l.natAbs_toInt_pos
    omega
  simp only [readClause, signedWord?_of_signed denotes l.natAbs_toInt_le, if_neg notZero,
    Lit.ofInt?_eq_some_iff.mpr rfl]

theorem readClause_zero (isZero : Numeral.Signed token 0) : readClause [token] = .ok [] := by
  simp only [readClause, signedWord?_of_signed isZero (by decide), if_true, List.isEmpty_nil]

theorem readClause_fault {fault : LineFault} (bad : TokenFault token rest fault) :
    readClause (token :: rest) = .error fault := by
  cases bad with
  | invalid noWord =>
      have noNumber : Numeral.signedWord? token = none := by
        cases read : Numeral.signedWord? token with
        | none => rfl
        | some n =>
            obtain ⟨denotes, inRange⟩ := Numeral.signedWord?_eq_some_iff.mp read
            exact absurd inRange (noWord n denotes)
      simp only [readClause, noNumber]
  | zero isZero more =>
      have notLast : rest.isEmpty = false := List.isEmpty_eq_false_iff.mpr more
      simp only [readClause, signedWord?_of_signed isZero (by decide), if_true, notLast,
        if_false, Bool.false_eq_true]
  | @large n denotes inRange tooLarge =>
      have notZero : n ≠ 0 := by omega
      have noLit : Lit.ofInt? n = none := Lit.ofInt?_eq_none_iff.mpr (by omega)
      simp only [readClause, Numeral.signedWord?_eq_some_iff.mpr ⟨denotes, inRange⟩,
        if_neg notZero, noLit]

theorem token_cases (token : List Char) (rest : List (List Char)) :
    (∃ l, Denotes token l) ∨ (rest = [] ∧ Numeral.Signed token 0) ∨
      ∃ fault, TokenFault token rest fault := by
  by_cases isWord : ∃ n, Numeral.Signed token n ∧ -2 ^ 63 ≤ n ∧ n < 2 ^ 63
  · obtain ⟨n, denotes, inRange⟩ := isWord
    by_cases isZero : n = 0
    · subst isZero
      by_cases last : rest = []
      · exact .inr (.inl ⟨last, denotes⟩)
      · exact .inr (.inr ⟨_, .zero denotes last⟩)
    · by_cases small : n.natAbs ≤ 2 ^ 28
      · exact .inl (namesLit_iff.mp ⟨n, denotes, by omega, small⟩)
      · exact .inr (.inr ⟨_, .large denotes inRange (by omega)⟩)
  · refine .inr (.inr ⟨_, .invalid ?_⟩)
    intro n denotes inRange
    exact isWord ⟨n, denotes, inRange⟩

end Tokens

theorem readClause_ok {numerals closing : List (List Char)} {lits : List Lit}
    (denote : List.Forall₂ Denotes numerals lits)
    (closes : Closes closing) : readClause (numerals ++ closing) = .ok lits := by
  induction denote with
  | nil =>
      rcases closes with rfl | ⟨zero, rfl, isZero⟩
      · rfl
      · exact readClause_zero isZero
  | cons denotes _ inductionHypothesis =>
      rw [List.cons_append, readClause_lit denotes, inductionHypothesis]
      rfl

theorem Writes.unique {text : List Char} {lits others : List Lit} (writes : Writes text lits)
    (same : Writes text others) : lits = others := by
  cases writes with
  | clause notComment notProblem split denote closes =>
      cases same with
      | clause _ _ otherSplit otherDenote otherCloses =>
          have read := readClause_ok denote closes
          have otherRead := readClause_ok otherDenote otherCloses
          rw [← split] at read
          rw [← otherSplit, read] at otherRead
          exact Except.ok.inj otherRead
      | other start =>
          rcases start with isComment | isProblem
          · exact absurd isComment notComment
          · exact absurd isProblem notProblem
  | other start =>
      cases same with
      | clause notComment notProblem _ _ _ =>
          rcases start with isComment | isProblem
          · exact absurd isComment notComment
          · exact absurd isProblem notProblem
      | other _ => rfl

/-- The tokens of a clause stand for literals up to the end, or up to the first with a fault. -/
theorem readClause_cases (tokens : List (List Char)) :
    (∃ numerals closing lits, tokens = numerals ++ closing ∧
      List.Forall₂ Denotes numerals lits ∧
      Closes closing) ∨
    (∃ numerals token rest fault, tokens = numerals ++ token :: rest ∧
      (∀ t ∈ numerals, NamesLit t) ∧ TokenFault token rest fault ∧
      readClause tokens = .error fault) := by
  induction tokens with
  | nil => exact .inl ⟨[], [], [], rfl, .nil, .inl rfl⟩
  | cons token rest inductionHypothesis =>
      rcases token_cases token rest with ⟨l, denotes⟩ | ⟨rfl, isZero⟩ | ⟨fault, bad⟩
      · rcases inductionHypothesis with ⟨numerals, closing, lits, rfl, denote, closes⟩ |
          ⟨numerals, bad, others, fault, rfl, good, isBad, read⟩
        · exact .inl ⟨token :: numerals, closing, l :: lits, rfl, .cons denotes denote, closes⟩
        · refine .inr ⟨token :: numerals, bad, others, fault, rfl, ?_, isBad, ?_⟩
          · intro t member
            rcases List.mem_cons.mp member with rfl | old
            · exact namesLit_iff.mpr ⟨l, denotes⟩
            · exact good t old
          · rw [readClause_lit denotes, read]
            rfl
      · exact .inl ⟨[], [token], [], rfl, .nil, .inr ⟨token, rfl, isZero⟩⟩
      · exact .inr ⟨[], token, rest, fault, rfl, by simp, bad, readClause_fault bad⟩

end Dimacs

end Clausal
