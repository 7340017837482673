import Clausal.Builtin.Toml.Number

/-!
# Documents of TOML

A document is a list of entries followed by tables, each with a header and entries of its own.
A key of several parts makes tables within tables.  Keys may repeat here: whether that is an
error is for the reader of the document to say.
-/

set_option autoImplicit false

namespace Clausal.Toml

inductive Value
  | string (text : String)
  | boolean (value : Bool)
  | scalar
  | array
  | inlineTable (entries : List (String × Value))
  /-- A table made by a key of several parts. -/
  | dottedTable (entries : List (String × Value))

abbrev Entries := List (String × Value)

structure Table where
  header : List String
  entries : Entries

structure Document where
  root : Entries
  tables : List Table

def replaceFirst (key : String) (value : Value) : Entries → Entries
  | [] => []
  | (other, old) :: rest =>
      if other = key then (other, value) :: rest else (other, old) :: replaceFirst key value rest

/-- Adds a value under a key, given as its first part and the others.  The parts before the last
one name tables, which only keys of several parts may extend. -/
def insert? (entries : Entries) (key : String) (others : List String) (value : Value) :
    Option Entries :=
  match others with
  | [] => some (entries ++ [(key, value)])
  | next :: rest =>
      match entries.find? fun entry => entry.1 == key with
      | some (_, .dottedTable inner) =>
          (insert? inner next rest value).map fun extended =>
            replaceFirst key (.dottedTable extended) entries
      | some _ => none
      | none =>
          (insert? [] next rest value).map fun inner => entries ++ [(key, .dottedTable inner)]

def skipBlanks : List Token → List Token
  | .blanks _ :: after => after
  | tokens => tokens

def isFiller : Token → Bool
  | .newline => true
  | .blanks _ => true
  | .comment => true
  | _ => false

def endLine? (tokens : List Token) : Option (List Token) :=
  match skipBlanks tokens with
  | [] => some []
  | [.comment] => some []
  | .newline :: after => some after
  | .comment :: .newline :: after => some after
  | _ => none

def keyPart? : List Token → Option (String × List Token)
  | .word text :: after => some (String.ofList text, after)
  | .string text false :: after => some (String.ofList text, after)
  | _ => none

def moreKeyParts? : Nat → List Token → Option (List String × List Token)
  | 0, _ => none
  | fuel + 1, tokens =>
      match skipBlanks tokens with
      | .period :: after =>
          match keyPart? (skipBlanks after) with
          | none => none
          | some (part, after) =>
              (moreKeyParts? fuel after).map fun (parts, rest) => (part :: parts, rest)
      | rest => some ([], rest)

/-- A key, as its first part and the others, and the tokens after it and its blanks. -/
def key? (tokens : List Token) : Option (String × List String × List Token) :=
  match keyPart? tokens with
  | none => none
  | some (part, after) =>
      (moreKeyParts? (after.length + 1) after).map fun (parts, rest) => (part, parts, rest)

mutual

def value? : Nat → List Token → Option (Value × List Token)
  | 0, _ => none
  | fuel + 1, tokens =>
      match tokens with
      | .string text _ :: after => some (.string (String.ofList text), after)
      | .word word :: after =>
          if word = ['t', 'r', 'u', 'e'] then some (.boolean true, after)
          else if word = ['f', 'a', 'l', 's', 'e'] then some (.boolean false, after)
          else
            let numeric := word = ['i', 'n', 'f'] || word = ['n', 'a', 'n'] ||
              match word with
              | c :: _ => c == '-' || c.isDigit
              | [] => false
            if numeric then (numberOrDate? word after).map fun rest => (.scalar, rest) else none
      | .plus :: .word word :: after => (number? word after).map fun rest => (.scalar, rest)
      | .leftBracket :: after => (arrayTail? fuel after).map fun rest => (.array, rest)
      | .leftBrace :: after =>
          match skipBlanks after with
          | .rightBrace :: rest => some (.inlineTable [], rest)
          | first =>
              (inlineEntries? fuel [] first).map fun (entries, rest) =>
                (.inlineTable entries, rest)
      | _ => none

def arrayTail? : Nat → List Token → Option (List Token)
  | 0, _ => none
  | fuel + 1, tokens =>
      match tokens.dropWhile isFiller with
      | .rightBracket :: after => some after
      | first =>
          match value? fuel first with
          | none => none
          | some (_, after) =>
              match after.dropWhile isFiller with
              | .comma :: next => arrayTail? fuel next
              | .rightBracket :: rest => some rest
              | _ => none

def inlineEntries? : Nat → Entries → List Token → Option (Entries × List Token)
  | 0, _, _ => none
  | fuel + 1, entries, tokens =>
      match key? tokens with
      | some (key, others, .equals :: after) =>
          match value? fuel (skipBlanks after) with
          | none => none
          | some (value, after) =>
              match insert? entries key others value with
              | none => none
              | some entries =>
                  match skipBlanks after with
                  | .rightBrace :: rest => some (entries, rest)
                  | .comma :: next => inlineEntries? fuel entries (skipBlanks next)
                  | _ => none
      | _ => none

end

def header? (inArray : Bool) (tokens : List Token) : Option (List String × List Token) :=
  match key? (skipBlanks tokens) with
  | none => none
  | some (part, parts, after) =>
      let closed := match inArray, after with
        | false, .rightBracket :: rest => some rest
        | true, .rightBracket :: .rightBracket :: rest => some rest
        | _, _ => none
      match closed with
      | none => none
      | some rest => (endLine? rest).map fun next => (part :: parts, next)

def entry? (entries : Entries) (tokens : List Token) : Option (Entries × List Token) :=
  match key? tokens with
  | some (key, others, .equals :: after) =>
      -- Every call for a value takes a token, or is the first of its array or table.
      match value? (2 * after.length + 2) (skipBlanks after) with
      | none => none
      | some (value, rest) =>
          match insert? entries key others value, endLine? rest with
          | some entries, some next => some (entries, next)
          | _, _ => none
  | _ => none

/-- The entries up to the next header, and the tables from there on. -/
def lines? : Nat → Entries → List Token → Option Document
  | 0, _, _ => none
  | fuel + 1, entries, tokens =>
      match tokens.dropWhile isFiller with
      | [] => some ⟨entries, []⟩
      | .leftBracket :: after =>
          let opened := match after with
            | .leftBracket :: inner => header? true inner
            | inner => header? false inner
          match opened with
          | none => none
          | some (header, next) =>
              (lines? fuel [] next).map fun rest =>
                ⟨entries, ⟨header, rest.root⟩ :: rest.tables⟩
      | first =>
          match entry? entries first with
          | none => none
          | some (entries, next) => lines? fuel entries next

def Document.parse? (text : String) : Option Document :=
  match tokens? text.toList with
  | none => none
  | some tokens => lines? (tokens.length + 1) [] tokens

end Clausal.Toml
