import Clausal.Proofs.ListedFormula

/-!
# Reading lines in place

A parser can be changed in place, field by field, with a buffer for the literals of the clause that
it reads.  Then it is the order of the steps, and not a parser that was kept, on which it rests that
a line with a fault leaves the formula, the counts and the header as they were.

All checks of a line come before the first change, so a line does to the parser in place what
`readLine` says, also if it fails (`parseLine_eq`).  The same holds of all bytes
(`feedBytes_inPlace`).
-/

set_option autoImplicit false

namespace Clausal.Dimacs

structure Workspace where
  parser : Parser
  collected : List Lit

namespace Workspace

abbrev Step := EStateM LineFault Workspace Unit

def change (next : Parser → Parser) : Step :=
  modify fun workspace => { workspace with parser := next workspace.parser }

def raiseVarCount (l : Lit) : Step :=
  change fun parser => { parser with varCount := max parser.varCount l.var.number }

/-- Collects the literals of a clause line up to its end or its first fault. -/
def collect : List (List Char) → Step
  | [] => return
  | token :: rest => do
      match Numeral.signedWord? token with
      | none => throw (.invalidLiteral (String.ofList token))
      | some n =>
          if n = 0 then
            if rest.isEmpty then return else throw .zeroLiteral
          match Lit.ofInt? n with
          | none => throw (.literalTooLarge (String.ofList token))
          | some l =>
              modify fun workspace => { workspace with collected := workspace.collected ++ [l] }
              collect rest

def store : Step := do
  let lits := (← get).collected
  if lits.isEmpty then return
  lits.forM raiseVarCount
  change fun parser => { parser with formula := parser.formula.addClause lits }
  change fun parser => { parser with clauseCount := parser.clauseCount + 1 }

def parseHeader (text varCount clauseCount : List Char) : Step := do
  if (← get).parser.header.isSome then
    throw (.duplicateHeader (String.ofList text))
  match Numeral.unsignedWord? varCount with
  | none => throw (.invalidHeader (String.ofList text))
  | some vars =>
      match Numeral.unsignedWord? clauseCount with
      | none => throw (.invalidHeader (String.ofList text))
      | some clauses =>
          if Var.maxCount < vars then
            throw (.literalTooLarge (String.ofList varCount))
          change fun parser => { parser with header := some ⟨vars, clauses⟩ }

def parseLine (text : List Char) : Step :=
  match Line.ofText text with
  | .skipped => return
  | .problem varCount clauseCount => parseHeader text varCount clauseCount
  | .clause tokens => do
      modify fun workspace => { workspace with collected := [] }
      collect tokens
      store

/-! ## The steps of a line -/

/-- Collecting touches the buffer only, whether it succeeds or not. -/
theorem collect_eq (tokens : List (List Char)) (parser : Parser) (collected : List Lit) :
    ∃ last, collect tokens ⟨parser, collected⟩ =
      match readClause tokens with
      | .ok lits => .ok () ⟨parser, collected ++ lits⟩
      | .error fault => .error fault ⟨parser, last⟩ := by
  induction tokens generalizing collected with
  | nil =>
      refine ⟨collected, ?_⟩
      change EStateM.Result.ok () (Workspace.mk parser collected) = .ok () ⟨parser, collected ++ []⟩
      rw [List.append_nil]
  | cons token rest inductionHypothesis =>
      rw [collect, readClause]
      cases Numeral.signedWord? token with
      | none => exact ⟨collected, rfl⟩
      | some n =>
          by_cases zero : n = 0
          · by_cases last : rest.isEmpty
            · simp only [if_pos zero, if_pos last, List.append_nil]
              exact ⟨collected, rfl⟩
            · simp only [if_pos zero, if_neg last]
              exact ⟨collected, rfl⟩
          · simp only [if_neg zero]
            cases Lit.ofInt? n with
            | none => exact ⟨collected, rfl⟩
            | some l =>
                obtain ⟨last, collects⟩ := inductionHypothesis (collected ++ [l])
                refine ⟨last, ?_⟩
                change collect rest ⟨parser, collected ++ [l]⟩ = _
                rw [collects]
                cases readClause rest with
                | error fault => rfl
                | ok lits => simp [Except.map]

theorem forM_raiseVarCount (lits : List Lit) (parser : Parser) (collected : List Lit) :
    lits.forM raiseVarCount ⟨parser, collected⟩ =
      .ok () ⟨{ parser with varCount := max parser.varCount (Formula.countFor lits) },
        collected⟩ := by
  rw [← Formula.foldl_countFor]
  induction lits generalizing parser with
  | nil => rfl
  | cons l rest inductionHypothesis =>
      exact inductionHypothesis { parser with varCount := max parser.varCount l.var.number }

theorem store_eq (parser : Parser) (lits : List Lit) :
    store ⟨parser, lits⟩ = .ok () ⟨parser.addClause lits, lits⟩ := by
  cases lits with
  | nil => rfl
  | cons l rest =>
      change (do
        (l :: rest).forM raiseVarCount
        change fun parser => { parser with formula := parser.formula.addClause (l :: rest) }
        change fun parser => { parser with clauseCount := parser.clauseCount + 1 } : Step)
          ⟨parser, l :: rest⟩ = _
      change EStateM.bind _ _ _ = _
      rw [EStateM.bind, forM_raiseVarCount]
      rfl

theorem parseHeader_eq (text varCount clauseCount : List Char) (parser : Parser)
    (collected : List Lit) :
    parseHeader text varCount clauseCount ⟨parser, collected⟩ =
      if parser.header.isSome then
        .error (.duplicateHeader (String.ofList text)) ⟨parser, collected⟩
      else match readHeader text varCount clauseCount with
        | .ok header => .ok () ⟨{ parser with header := some header }, collected⟩
        | .error fault => .error fault ⟨parser, collected⟩ := by
  change (if parser.header.isSome then _ else _ : Step) ⟨parser, collected⟩ = _
  rw [readHeader]
  by_cases duplicate : parser.header.isSome
  · rw [if_pos duplicate, if_pos duplicate]
    rfl
  · rw [if_neg duplicate, if_neg duplicate]
    cases Numeral.unsignedWord? varCount with
    | none => rfl
    | some vars =>
        cases Numeral.unsignedWord? clauseCount with
        | none => rfl
        | some clauses =>
            by_cases tooLarge : Var.maxCount < vars
            · simp only [if_pos tooLarge, if_neg (Nat.not_le_of_lt tooLarge)]
              rfl
            · simp only [if_neg tooLarge, if_pos (Nat.le_of_not_lt tooLarge)]
              rfl

/-- A line does to the parser in place what it does to a parser that is kept: a fault finds it as it
was. -/
theorem parseLine_eq (text : List Char) (parser : Parser) (collected : List Lit) :
    ∃ last, parseLine text ⟨parser, collected⟩ =
      match parser.readLine text with
      | .ok next => .ok () ⟨next, last⟩
      | .error fault => .error fault ⟨parser, last⟩ := by
  rw [parseLine, Parser.readLine]
  cases Line.ofText text with
  | skipped => exact ⟨collected, rfl⟩
  | problem varCount clauseCount =>
      refine ⟨collected, (parseHeader_eq text varCount clauseCount parser collected).trans ?_⟩
      by_cases duplicate : parser.header.isSome
      · simp only [if_pos duplicate]
      · simp only [if_neg duplicate]
        cases readHeader text varCount clauseCount <;> rfl
  | clause tokens =>
      obtain ⟨last, collects⟩ := collect_eq tokens parser []
      change ∃ last, EStateM.bind (collect tokens) (fun _ => store) ⟨parser, []⟩ = _
      rw [EStateM.bind, collects]
      dsimp only
      cases readClause tokens with
      | error fault => exact ⟨last, rfl⟩
      | ok lits => exact ⟨lits, store_eq parser lits⟩

/-! ## All bytes -/

/-- Ends the line in place: its bytes are taken out, and a fault marks the parser. -/
def finishLine (workspace : Workspace) : Workspace × Except ParseError Unit :=
  let parser := workspace.parser
  let text := trimBlanks (Utf8.decodeLossy parser.pending.toList)
  match parseLine text { workspace with parser := { parser with pending := #[] } } with
  | .ok _ next => (next, .ok ())
  | .error fault next =>
      ({ next with parser := { next.parser with failed := true } },
        .error (.line next.parser.lineNumber fault))

def feedBytes (workspace : Workspace) : List UInt8 → Workspace × Except ParseError Unit
  | [] => (workspace, .ok ())
  | byte :: rest =>
      let parser := workspace.parser
      if byte = Parser.newline then
        match workspace.finishLine with
        | (next, .ok ()) =>
            let lineNumber := next.parser.lineNumber + 1
            { next with parser := { next.parser with lineNumber } }.feedBytes rest
        | (next, .error error) => (next, .error error)
      else
        { workspace with parser := { parser with pending := parser.pending.push byte } }.feedBytes
          rest

theorem finishLine_inPlace (workspace : Workspace) :
    workspace.finishLine.map Workspace.parser id = workspace.parser.finishLine := by
  obtain ⟨parser, collected⟩ := workspace
  obtain ⟨last, reads⟩ := parseLine_eq (trimBlanks (Utf8.decodeLossy parser.pending.toList))
    { parser with pending := #[] } collected
  simp only [finishLine, Parser.finishLine, reads]
  cases Parser.readLine { parser with pending := #[] }
      (trimBlanks (Utf8.decodeLossy parser.pending.toList)) <;> rfl

theorem feedBytes_inPlace (workspace : Workspace) (bytes : List UInt8) :
    (workspace.feedBytes bytes).map Workspace.parser id = workspace.parser.feedBytes bytes := by
  induction bytes generalizing workspace with
  | nil => rfl
  | cons byte rest inductionHypothesis =>
      have finishes := workspace.finishLine_inPlace
      rw [feedBytes, Parser.feedBytes]
      by_cases isNewline : byte = Parser.newline
      · simp only [if_pos isNewline, ← finishes]
        obtain ⟨next, answer⟩ := workspace.finishLine
        cases answer with
        | ok done => exact inductionHypothesis _
        | error error => rfl
      · simp only [if_neg isNewline]
        exact inductionHypothesis _

end Workspace

end Clausal.Dimacs
