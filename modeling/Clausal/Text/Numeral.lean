/-!
# Numerals

Decimal numerals as character lists: writing a natural number or an integer with the fewest
digits, and reading a numeral of any length back.  Readers of machine words sit on top of the
unbounded reader and only add the range.
-/

set_option autoImplicit false

namespace Clausal.Numeral

def digitChar (digit : Nat) : Char :=
  Char.ofNat (48 + digit)

def digitValue? (c : Char) : Option Nat :=
  if 48 ≤ c.toNat ∧ c.toNat ≤ 57 then some (c.toNat - 48) else none

def natural (n : Nat) : List Char :=
  if n < 10 then [digitChar n] else natural (n / 10) ++ [digitChar (n % 10)]

def integer : Int → List Char
  | .ofNat n => natural n
  | .negSucc n => '-' :: natural (n + 1)

/-- Reads digits from the most significant on, after `value` has been read already. -/
def digitsFrom? (value : Nat) : List Char → Option Nat
  | [] => some value
  | c :: rest =>
      match digitValue? c with
      | some digit => digitsFrom? (10 * value + digit) rest
      | none => none

def natural? : List Char → Option Nat
  | [] => none
  | digits => digitsFrom? 0 digits

def integer? : List Char → Option Int
  | '-' :: digits => (natural? digits).map fun n => -(n : Int)
  | '+' :: digits => (natural? digits).map fun n => (n : Int)
  | digits => (natural? digits).map fun n => (n : Int)

/-- Reads a signed 64-bit word: an optionally signed numeral within `-2^63` and `2^63 - 1`. -/
def signedWord? (text : List Char) : Option Int :=
  match integer? text with
  | some n => if -0x8000000000000000 ≤ n ∧ n < 0x8000000000000000 then some n else none
  | none => none

/-- Reads an unsigned 64-bit word: digits after an optional plus sign, below `2^64`. -/
def unsignedWord? (text : List Char) : Option Nat :=
  let digits := match text with
    | '+' :: rest => rest
    | other => other
  match natural? digits with
  | some n => if n < 0x10000000000000000 then some n else none
  | none => none

end Clausal.Numeral
