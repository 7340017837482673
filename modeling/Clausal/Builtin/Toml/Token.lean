/-!
# Tokens of TOML

A document is cut into tokens before it is parsed.  Line ends are a newline or a carriage return
with a newline; a mark of the byte order at the start is passed over.  Words are the bare keys of
the format, which also make up numbers and dates.  Strings are decoded here.
-/

set_option autoImplicit false

namespace Clausal.Toml

inductive Token
  | newline
  | blanks (text : List Char)
  | comment
  | equals
  | period
  | comma
  | colon
  | plus
  | leftBrace
  | rightBrace
  | leftBracket
  | rightBracket
  /-- A run of letters, digits, hyphens and underscores. -/
  | word (text : List Char)
  /-- A string and whether it was written in the form for several lines. -/
  | string (text : List Char) (multiline : Bool)
  deriving DecidableEq, Repr

/-- What is left of a text after something was read from its start. -/
abbrev Shorter (text : List Char) := { rest : List Char // rest.length < text.length }

def foldLineEnds : List Char → List Char
  | '\r' :: '\n' :: rest => '\n' :: foldLineEnds rest
  | c :: rest => c :: foldLineEnds rest
  | [] => []

def isWordChar (c : Char) : Bool := c.isAlphanum || c == '-' || c == '_'

def isInlineBlank (c : Char) : Bool := c == ' ' || c == '\t'

def isCommentChar (c : Char) : Bool := c == '\t' || 0x20 ≤ c.toNat

def isStringChar (c : Char) : Bool := c == '\t' || (0x20 ≤ c.toNat && c.toNat != 0x7F)

def hexValue? (c : Char) : Option Nat :=
  if '0' ≤ c ∧ c ≤ '9' then some (c.toNat - 48)
  else if 'a' ≤ c ∧ c ≤ 'f' then some (c.toNat - 87)
  else if 'A' ≤ c ∧ c ≤ 'F' then some (c.toNat - 55)
  else none

def charOfHex? (digits : List Char) : Option Char :=
  match digits.mapM hexValue? with
  | none => none
  | some values =>
      let code := values.foldl (fun code value => 16 * code + value) 0
      if code.isValidChar then some (Char.ofNat code) else none

def escape? : (text : List Char) → Option (Char × Shorter text)
  | '"' :: rest => some ('"', ⟨rest, by simp⟩)
  | '\\' :: rest => some ('\\', ⟨rest, by simp⟩)
  | 'b' :: rest => some ('\x08', ⟨rest, by simp⟩)
  | 'f' :: rest => some ('\x0C', ⟨rest, by simp⟩)
  | 'n' :: rest => some ('\n', ⟨rest, by simp⟩)
  | 'r' :: rest => some ('\r', ⟨rest, by simp⟩)
  | 't' :: rest => some ('\t', ⟨rest, by simp⟩)
  | 'u' :: a :: b :: c :: d :: rest =>
      (charOfHex? [a, b, c, d]).map fun char => (char, ⟨rest, by simp; omega⟩)
  | 'U' :: a :: b :: c :: d :: e :: f :: g :: h :: rest =>
      (charOfHex? [a, b, c, d, e, f, g, h]).map fun char => (char, ⟨rest, by simp; omega⟩)
  | _ => none

/-- Reads what follows a backslash at the end of a line: the line end and all blanks and line ends
after it. -/
def lineContinuation? (text : List Char) : Option (Shorter text) :=
  match afterBlanks : text.dropWhile isInlineBlank with
  | '\n' :: rest =>
      some ⟨rest.dropWhile fun c => isInlineBlank c || c == '\n', by
        have shorter : (text.dropWhile isInlineBlank).length ≤ text.length :=
          (List.dropWhile_sublist _).length_le
        have dropped := (List.dropWhile_sublist
          (l := rest) (fun c => isInlineBlank c || c == '\n')).length_le
        rw [afterBlanks, List.length_cons] at shorter
        omega⟩
  | _ => none

/-- Reads the end of a string over several lines: three quotes, and up to two more that belong to
the string. -/
def closeMultiline? (quote : Char) (text : List Char) : Option (List Char × List Char) :=
  let run := (text.takeWhile (· == quote)).length
  if run < 3 then none
  else some (List.replicate (min run 5 - 3) quote, text.drop (min run 5))

/-- Reads the rest of a string, of which `seen` has been read last character first. -/
def stringBody (quote : Char) (multiline : Bool) (seen text : List Char) :
    Option (List Char × List Char) :=
  match text with
  | [] => none
  | c :: rest =>
      if c = quote then
        if multiline then
          match closeMultiline? quote (c :: rest) with
          | some (inside, after) => some (seen.reverse ++ inside, after)
          | none => stringBody quote multiline (c :: seen) rest
        else
          some (seen.reverse, rest)
      else if c = '\n' then
        if multiline then stringBody quote multiline (c :: seen) rest else none
      else if c = '\\' ∧ quote = '"' then
        match escape? rest with
        | some (char, after) => stringBody quote multiline (char :: seen) after.val
        | none =>
            if multiline then
              match lineContinuation? rest with
              | some after => stringBody quote multiline seen after.val
              | none => none
            else
              none
      else if isStringChar c then
        stringBody quote multiline (c :: seen) rest
      else
        none
  termination_by text.length
  decreasing_by
    · simp
    · simp
    · have := after.property
      simp
      omega
    · have := after.property
      simp
      omega
    · simp

def stringToken? (quote : Char) (text : List Char) : Option (Token × List Char) :=
  let read (multiline : Bool) (body : List Char) :=
    (stringBody quote multiline [] body).map fun (inside, after) =>
      (Token.string inside multiline, after)
  match text with
  | a :: b :: rest =>
      if a = quote ∧ b = quote then
        match rest with
        | '\n' :: body => read true body
        | body => read true body
      else if a = quote then
        some (.string [] false, b :: rest)
      else
        read false text
  | [a] => if a = quote then some (.string [] false, []) else none
  | [] => none

def token? (c : Char) (rest : List Char) : Option (Token × List Char) :=
  match c with
  | '\n' => some (.newline, rest)
  | '#' => some (.comment, rest.dropWhile isCommentChar)
  | '=' => some (.equals, rest)
  | '.' => some (.period, rest)
  | ',' => some (.comma, rest)
  | ':' => some (.colon, rest)
  | '+' => some (.plus, rest)
  | '{' => some (.leftBrace, rest)
  | '}' => some (.rightBrace, rest)
  | '[' => some (.leftBracket, rest)
  | ']' => some (.rightBracket, rest)
  | '\'' => stringToken? c rest
  | '"' => stringToken? c rest
  | _ =>
      if isInlineBlank c then
        some (.blanks (c :: rest.takeWhile isInlineBlank), rest.dropWhile isInlineBlank)
      else if isWordChar c then
        some (.word (c :: rest.takeWhile isWordChar), rest.dropWhile isWordChar)
      else
        none

def tokensWithin : Nat → List Char → Option (List Token)
  | _, [] => some []
  | 0, _ :: _ => none
  | fuel + 1, c :: rest =>
      match token? c rest with
      | none => none
      | some (token, after) => (tokensWithin fuel after).map (token :: ·)

/-- Cuts a document into tokens; absent where some character starts none.  A token takes a
character at least, so the length of the text is fuel enough. -/
def tokens? (text : List Char) : Option (List Token) :=
  let body := foldLineEnds (match text with
    | '\uFEFF' :: rest => rest
    | other => other)
  tokensWithin body.length body

end Clausal.Toml
