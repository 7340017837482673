import Clausal.Builtin.Toml.Token

/-!
# Numbers and dates of TOML

No option takes a number or a date, so these are checked and not kept.  Underscores may stand
between digits, and decimal numbers have no leading zeros.  Integers fit 64 bits with a sign;
fractions must not be larger than every finite number of double precision.
-/

set_option autoImplicit false

namespace Clausal.Toml

def isDigitOf (base : Nat) (c : Char) : Bool :=
  match hexValue? c with
  | some value => value < base
  | none => false

structure DigitState where
  first : Bool := true
  firstZero : Bool := false
  underscore : Bool := false

def digitsAfter (base : Nat) (leadingZeros : Bool) (state : DigitState) (seen : List Char) :
    List Char → Option (List Char × List Char)
  | [] => if state.first || state.underscore then none else some (seen.reverse, [])
  | c :: rest =>
      if c = '0' ∧ state.first then
        digitsAfter base leadingZeros { state with first := false, firstZero := true } (c :: seen)
          rest
      else if isDigitOf base c then
        if !state.first && state.firstZero && !leadingZeros then none
        else
          digitsAfter base leadingZeros { state with first := false, underscore := false }
            (c :: seen) rest
      else if c = '_' ∧ state.first then
        none
      else if c = '_' ∧ !state.underscore then
        digitsAfter base leadingZeros { state with underscore := true } seen rest
      else if state.first || state.underscore then
        none
      else
        some (seen.reverse, c :: rest)

structure Digits where
  negative : Bool
  digits : List Char
  rest : List Char

def digits? (base : Nat) (signed leadingZeros : Bool) (text : List Char) : Option Digits :=
  let (negative, body) := match signed, text with
    | true, '-' :: body => (true, body)
    | _, body => (false, body)
  (digitsAfter base leadingZeros {} [] body).map fun (digits, rest) => ⟨negative, digits, rest⟩

def digitsValue (base : Nat) (digits : List Char) : Nat :=
  digits.foldl (fun value c => base * value + (hexValue? c).getD 0) 0

/-- Whether a text is an integer of a base that fits 64 bits. -/
def isInteger (base : Nat) (text : List Char) : Bool :=
  match digits? base (base == 10) (base != 10) text with
  | none => false
  | some number =>
      let value := digitsValue base number.digits
      number.rest.isEmpty && value < 0x8000000000000000 + (if number.negative then 1 else 0)

/-- Whether `digits` times a power of ten rounds to a finite number of double precision. -/
def isFinite (digits : List Char) (exponent : Int) : Bool :=
  let value := digitsValue 10 digits
  let limit := (Nat.pow 2 54 - 1) * Nat.pow 2 970
  if value = 0 then true
  else if exponent > 309 then false
  else if exponent ≥ 0 then value * Nat.pow 10 exponent.toNat < limit
  else if exponent.natAbs ≥ digits.length then true
  else value < limit * Nat.pow 10 exponent.natAbs

def exponent? (text : List Char) (after : List Token) : Option (Int × List Token) :=
  match text with
  | [] => some (0, after)
  | mark :: body =>
      if mark ≠ 'e' ∧ mark ≠ 'E' then none
      else
        let (source, signed, after) := match body, after with
          | [], .plus :: .word text :: after => (some text, false, after)
          | [], .word text :: after => (some text, false, after)
          | [], after => (none, false, after)
          | body, after => (some body, true, after)
        match source with
        | none => none
        | some source =>
            match digits? 10 signed true source with
            | none => none
            | some number =>
                let value : Int := digitsValue 10 number.digits
                if number.rest.isEmpty then some (if number.negative then -value else value, after)
                else none

def float? (text : List Char) (fraction : Option (List Char)) (after : List Token) :
    Option (List Token) := do
  let whole ← digits? 10 true false text
  let (decimals, suffix) ← match fraction with
    | none => some ([], whole.rest)
    | some text =>
        if whole.rest.isEmpty then
          (digits? 10 false true text).map fun number => (number.digits, number.rest)
        else
          none
  let (exponent, after) ← exponent? suffix after
  if isFinite (whole.digits ++ decimals) (exponent - decimals.length) then some after else none

def number? (word : List Char) (after : List Token) : Option (List Token) :=
  let integerOf (base : Nat) (text : List Char) :=
    if isInteger base text then some after else none
  match word with
  | '0' :: 'x' :: text => integerOf 16 text
  | '0' :: 'o' :: text => integerOf 8 text
  | '0' :: 'b' :: text => integerOf 2 text
  | _ =>
      if word.contains 'e' || word.contains 'E' then float? word none after
      else
        match after with
        | .period :: .word fraction :: after => float? word (some fraction) after
        | .period :: _ => none
        | _ =>
            if ["inf", "-inf", "nan", "-nan"].contains (String.ofList word) then some after
            else integerOf 10 word

def skipWord? : List Token → Option (List Token)
  | .word _ :: after => some after
  | _ => none

/-- The tokens after a mark and a word, if the mark is there. -/
def skipMarked? (mark : Token) : List Token → Option (List Token)
  | [] => some []
  | token :: after => if token = mark then skipWord? after else some (token :: after)

def timeTail? (after : List Token) : Option (List Token) := do
  let after ← skipWord? after
  let after ← match after with
    | .colon :: seconds => skipWord? seconds
    | _ => none
  let after ← skipMarked? .period after
  let after ← skipMarked? .plus after
  skipMarked? .colon after

/-- The tokens after the date or time whose first word has been read, with the colon after it if
`colonRead`. -/
def dateTime? (colonRead : Bool) (after : List Token) : Option (List Token) :=
  let after := match after with
    | .blanks [' '] :: .word _ :: later => later
    | other => other
  if colonRead then timeTail? after
  else
    match after with
    | .colon :: time => timeTail? time
    | other => some other

def holds (text part : List Char) : Bool :=
  match text with
  | [] => part.isEmpty
  | c :: rest => part.isPrefixOf (c :: rest) || holds rest part

def numberOrDate? (word : List Char) (after : List Token) : Option (List Token) :=
  let hyphenated := (word.drop 1).contains '-' && !holds word ['e', '-'] && !holds word ['E', '-']
  if word.contains 'T' || word.contains 't' || hyphenated then dateTime? false after
  else
    match after with
    | .colon :: time => dateTime? true time
    | other => number? word other

end Clausal.Toml
