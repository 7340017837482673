import Clausal.Proofs.WrittenText

/-!
# Writing where room is limited

Everything that is written for a formula is written in order, and the first piece that does not
fit ends the writing.  So a target with room for some bytes holds either the whole text or as many
of its first bytes as there is room for, whichever piece the room ends in (`putFormula_limited`).
The clauses may also be written batch by batch.
-/

set_option autoImplicit false

namespace Clausal.Dimacs

def heldBytes : Except Full Sink → Except (List UInt8) (List UInt8)
  | .ok sink => .ok (Utf8.encode sink.written)
  | .error full => .error (Utf8.encode full.written)

def formulaBytes (formula : Formula) : List UInt8 :=
  Utf8.asciiBytes (textOf (formulaWords formula))

def Sink.putBatches (sink : Sink) (header : Header) (batches : List (List (List Lit))) :
    Except Full Sink :=
  (sink.putHeader header).bind fun next => batches.foldlM Sink.putClauses next

theorem Sink.foldlM_putClauses (sink : Sink) (batches : List (List (List Lit))) :
    batches.foldlM Sink.putClauses sink = sink.putClauses batches.flatten := by
  induction batches generalizing sink with
  | nil => rfl
  | cons batch rest inductionHypothesis =>
      rw [List.foldlM_cons, List.flatten_cons, putClauses_eq, putClauses_eq, List.flatMap_append,
        put_append]
      cases sink.put (batch.flatMap clauseText) with
      | error full => rfl
      | ok next => exact (inductionHypothesis next).trans (putClauses_eq next rest.flatten)

theorem Sink.putBatches_eq (sink : Sink) {formula : Formula} {batches : List (List (List Lit))}
    (cut : batches.flatten = formula.clauses) :
    sink.putBatches (headerOf formula) batches = sink.putFormula formula := by
  rw [putBatches, putFormula]
  cases sink.putHeader (headerOf formula) with
  | error full => rfl
  | ok next =>
      rw [← cut]
      exact next.foldlM_putClauses batches

/-- A character of ASCII text takes the room of one byte. -/
theorem heldBytes_put {text : List Char} (ascii : ∀ c ∈ text, c.toNat < 128) (room : Nat) :
    heldBytes ((Sink.withRoom (some room)).put text) =
      if (Utf8.asciiBytes text).length ≤ room then .ok (Utf8.asciiBytes text)
      else .error ((Utf8.asciiBytes text).take room) := by
  have sameLength : (Utf8.asciiBytes text).length = text.length := List.length_map _
  have ascii_take : ∀ c ∈ text.take room, c.toNat < 128 :=
    fun c member => ascii c (List.mem_of_mem_take member)
  simp only [Sink.withRoom, Sink.put, sameLength]
  by_cases fits : text.length ≤ room
  · rw [if_pos fits, if_pos fits, heldBytes, String.empty_append, Utf8.encode_ascii ascii]
  · rw [if_neg fits, if_neg fits, heldBytes, String.empty_append, Utf8.encode_ascii ascii_take,
      Utf8.asciiBytes, List.map_take]
    rfl

/-- A formula has one text.  Written into limited room it succeeds with all of the text exactly
when that fits, and otherwise leaves as many of its first bytes as there is room for.  Into any
target a header and the clauses, in batches of consecutive ones, are written like the formula. -/
theorem putFormula_limited (formula : Formula) :
    writtenBytes formula = .ok (formulaBytes formula) ∧
    (∀ room, heldBytes ((Sink.withRoom (some room)).putFormula formula) =
      if (formulaBytes formula).length ≤ room then .ok (formulaBytes formula)
      else .error ((formulaBytes formula).take room)) ∧
    ∀ batches : List (List (List Lit)), batches.flatten = formula.clauses → ∀ sink : Sink,
      sink.putBatches (headerOf formula) batches = sink.putFormula formula := by
  refine ⟨writtenBytes_eq formula, ?_, fun batches cut sink => sink.putBatches_eq cut⟩
  intro room
  rw [Sink.putFormula_eq, formulaText_eq]
  exact heldBytes_put (ascii_textOf (isWord_formulaWords formula)) room

/-- Room that ends between the digits and the newline of a clause's zero, in a batch of its own. -/
theorem putFormula_limited_in_zero :
    let x : Var := ⟨0, by decide⟩
    let y : Var := ⟨1, by decide⟩
    let formula := Formula.ofClauses [[x.positive], [x.negative, y.positive]]
    let batches := [[], [[x.positive]], [[x.negative, y.positive]]]
    batches.flatten = formula.clauses ∧
      heldBytes ((Sink.withRoom (some 13)).putBatches (headerOf formula) batches) =
        .error (Utf8.asciiBytes "p cnf 2 2\n1 0".toList) := by
  intro x y formula batches
  have cut : batches.flatten = formula.clauses := by decide
  refine ⟨cut, ?_⟩
  obtain ⟨_, limited, sameAsBatches⟩ := putFormula_limited formula
  have longer : ¬(formulaBytes formula).length ≤ 13 := by decide +kernel
  rw [sameAsBatches batches cut, limited, if_neg longer]
  decide +kernel

end Clausal.Dimacs
