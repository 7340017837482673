import Clausal.Proofs.AsciiText
import Clausal.Proofs.InputLines
import Clausal.Proofs.LineGrammar

/-!
# Lines of words

Words with single blanks between them form a line that has no blanks around it and has these words
as its fields.  A text of such lines, each ended by a newline, is cut into these lines again
(`linesOf_textOf`).
-/

set_option autoImplicit false

namespace Clausal

structure IsWord (word : List Char) : Prop where
  ne_nil : word ≠ []
  isBlank_eq_false : ∀ c ∈ word, isBlank c = false
  ascii : ∀ c ∈ word, c.toNat < 128

theorem isWord_of_all {word : List Char} (nonempty : word ≠ [])
    (plain : (word.all fun c => !isBlank c && c.toNat < 128) = true) : IsWord word := by
  simp only [List.all_eq_true, Bool.and_eq_true, Bool.not_eq_true', decide_eq_true_eq] at plain
  exact ⟨nonempty, fun c member => (plain c member).1, fun c member => (plain c member).2⟩

def spaced (words : List (List Char)) : List Char := [' '].intercalate words

section Spaced

variable {words : List (List Char)}

theorem spaced_cons {rest : List (List Char)} (word : List Char) (more : rest ≠ []) :
    spaced (word :: rest) = word ++ ' ' :: spaced rest := by
  rw [spaced, List.intercalate_cons_of_ne_nil more, List.append_assoc, List.singleton_append]
  rfl

theorem fields_word {word : List Char} (isWord : IsWord word) : fields word = [word] := by
  rw [fields, List.splitOnP_eq_singleton isWord.isBlank_eq_false]
  simp [isWord.ne_nil]

theorem fields_spaced (areWords : ∀ word ∈ words, IsWord word) : fields (spaced words) = words := by
  induction words with
  | nil => rfl
  | cons word rest inductionHypothesis =>
      have isWord := areWords word (by simp)
      have restFields := inductionHypothesis fun other member => areWords other (by simp [member])
      by_cases last : rest = []
      · subst last
        rw [spaced, List.intercalate_singleton, fields_word isWord]
      · have splitFirst :
            fields (word ++ ' ' :: spaced rest) = fields word ++ fields (spaced rest) := by
          rw [fields, List.splitOnP_append_cons _ _ (by decide), List.filter_append]
          rfl
        rw [spaced_cons word last, splitFirst, fields_word isWord, restFields,
          List.singleton_append]

theorem head?_spaced {word : List Char} (isWord : IsWord word) (rest : List (List Char)) :
    (spaced (word :: rest)).head? = word.head? := by
  by_cases last : rest = []
  · subst last
    rw [spaced, List.intercalate_singleton]
  · rw [spaced_cons word last, List.head?_append_of_ne_nil _ isWord.ne_nil]

/-- A line of words ends with the end of its last word. -/
theorem exists_word_getLast? (areWords : ∀ word ∈ words, IsWord word) (nonempty : words ≠ []) :
    ∃ word ∈ words, (spaced words).getLast? = word.getLast? := by
  induction words with
  | nil => exact absurd rfl nonempty
  | cons word rest inductionHypothesis =>
      by_cases last : rest = []
      · subst last
        exact ⟨word, by simp, by rw [spaced, List.intercalate_singleton]⟩
      · obtain ⟨other, member, sameLast⟩ :=
          inductionHypothesis (fun w inRest => areWords w (by simp [inRest])) last
        refine ⟨other, by simp [member], ?_⟩
        have notNil : spaced rest ≠ [] := by
          intro nothing
          rw [nothing] at sameLast
          have isWord := areWords other (by simp [member])
          exact isWord.ne_nil (List.getLast?_eq_none_iff.mp sameLast.symm)
        rw [spaced_cons word last, ← sameLast, List.getLast?_append_of_ne_nil _ (by simp),
          List.getLast?_cons_of_ne_nil notNil]

theorem trimBlanks_eq_self {text : List Char} (first : ∀ c, text.head? = some c → isBlank c = false)
    (last : ∀ c, text.getLast? = some c → isBlank c = false) : trimBlanks text = text := by
  have noFront : text.dropWhile isBlank = text := by
    cases text with
    | nil => rfl
    | cons c rest => rw [List.dropWhile_cons, first c rfl, if_neg (by decide)]
  have noBack : text.reverse.dropWhile isBlank = text.reverse := by
    cases reversed : text.reverse with
    | nil => rfl
    | cons c rest =>
        have isLast : text.getLast? = some c := by
          rw [← List.head?_reverse, reversed]
          rfl
        rw [List.dropWhile_cons, last c isLast, if_neg (by decide)]
  rw [trimBlanks, noFront, noBack, List.reverse_reverse]

theorem trimBlanks_spaced (areWords : ∀ word ∈ words, IsWord word) :
    trimBlanks (spaced words) = spaced words := by
  cases words with
  | nil => rfl
  | cons word rest =>
      have isWord := areWords word (by simp)
      apply trimBlanks_eq_self
      · intro c isFirst
        rw [head?_spaced isWord] at isFirst
        exact isWord.isBlank_eq_false c (List.mem_of_mem_head? isFirst)
      · intro c isLast
        obtain ⟨other, member, sameLast⟩ := exists_word_getLast? areWords (by simp)
        rw [sameLast] at isLast
        exact (areWords other member).isBlank_eq_false c (List.mem_of_mem_getLast? isLast)

theorem mem_spaced {c : Char} (member : c ∈ spaced words) :
    c = ' ' ∨ ∃ word ∈ words, c ∈ word := by
  induction words with
  | nil => cases member
  | cons word rest inductionHypothesis =>
      by_cases last : rest = []
      · subst last
        rw [spaced, List.intercalate_singleton] at member
        exact .inr ⟨word, by simp, member⟩
      · rw [spaced_cons word last, List.mem_append, List.mem_cons] at member
        rcases member with first | isSpace | inRest
        · exact .inr ⟨word, by simp, first⟩
        · exact .inl isSpace
        · rcases inductionHypothesis inRest with isSpace | ⟨other, isWord, inOther⟩
          · exact .inl isSpace
          · exact .inr ⟨other, by simp [isWord], inOther⟩

theorem plain_spaced (areWords : ∀ word ∈ words, IsWord word) {c : Char}
    (member : c ∈ spaced words) : c.toNat < 128 ∧ c ≠ '\n' := by
  rcases mem_spaced member with rfl | ⟨word, isOne, inWord⟩
  · decide
  · have isWord := areWords word isOne
    refine ⟨isWord.ascii c inWord, ?_⟩
    rintro rfl
    exact absurd (isWord.isBlank_eq_false '\n' inWord) (by decide)

end Spaced

/-! ## Lines -/

def textOf (lines : List (List (List Char))) : List Char :=
  lines.flatMap fun words => spaced words ++ ['\n']

section Lines

variable {lines : List (List (List Char))}

theorem ascii_textOf (areWords : ∀ words ∈ lines, ∀ word ∈ words, IsWord word) :
    ∀ c ∈ textOf lines, c.toNat < 128 := by
  intro c member
  obtain ⟨words, isLine, inLine⟩ := List.mem_flatMap.mp member
  rcases List.mem_append.mp inLine with inside | isNewline
  · exact (plain_spaced (areWords words isLine) inside).1
  · rw [List.mem_singleton.mp isNewline]
    decide

theorem newline_notMem {text : List Char} (plain : ∀ c ∈ text, c.toNat < 128 ∧ c ≠ '\n') :
    Dimacs.Parser.newline ∉ Utf8.asciiBytes text := by
  intro member
  obtain ⟨c, inText, isNewline⟩ := List.mem_map.mp member
  obtain ⟨ascii, other⟩ := plain c inText
  have sameCode := congrArg UInt8.toNat isNewline
  rw [Utf8.toNat_asciiByte ascii] at sameCode
  exact other (Char.ext (UInt32.toNat_inj.mp sameCode))

theorem linesOf_textOf (areWords : ∀ words ∈ lines, ∀ word ∈ words, IsWord word) :
    Dimacs.linesOf (Utf8.asciiBytes (textOf lines)) = lines.map spaced ++ [[]] := by
  induction lines with
  | nil => rfl
  | cons words rest inductionHypothesis =>
      have firstWords := areWords words (by simp)
      have plain := fun c (member : c ∈ spaced words) => plain_spaced firstWords member
      have restLines := inductionHypothesis fun line member => areWords line (by simp [member])
      have split : Utf8.asciiBytes (textOf (words :: rest)) =
          Utf8.asciiBytes (spaced words) ++
            Dimacs.Parser.newline :: Utf8.asciiBytes (textOf rest) := by
        simp only [textOf, Utf8.asciiBytes, List.flatMap_cons, List.map_append, List.append_assoc]
        rfl
      have firstLine : Dimacs.lineText (Utf8.asciiBytes (spaced words)) = spaced words := by
        rw [Dimacs.lineText, Utf8.decodeLossy_ascii fun c member => (plain c member).1,
          trimBlanks_spaced firstWords]
      rw [Dimacs.linesOf] at restLines
      rw [split, Dimacs.linesOf, List.splitOn_append_cons_self_of_not_mem (newline_notMem plain),
        List.map_cons, firstLine, restLines, List.map_cons, List.cons_append]

end Lines

end Clausal
