import Clausal.Fault
import Clausal.Text.Numeral

/-!
# Variables and literals

A variable is an index below `2^28`, written as the number one above it.  A literal is a code:
twice the index of its variable, plus one when it is negative.  The two literals of a variable
are therefore neighbours, and comparing codes compares variables first and puts the positive
literal of a variable before its negative one.

Outside the library a literal is a nonzero integer whose magnitude is the number of its variable
and whose sign is its polarity.
-/

set_option autoImplicit false

namespace Clausal

structure Var where
  index : Nat
  index_lt : index < 0x10000000
  deriving DecidableEq

structure Lit where
  code : Nat
  code_lt : code < 0x20000000
  deriving DecidableEq

namespace Var

def maxCount : Nat := 0x10000000

def last : Var := ⟨0xFFFFFFF, by decide⟩

def number (v : Var) : Nat := v.index + 1

def ofIndex (index : Nat) : Except Fault Var :=
  if inRange : index < 0x10000000 then .ok ⟨index, inRange⟩ else .error (.variableIndex index)

def ofNumber (number : Int) : Except Fault Var :=
  if number ≤ 0 then .error (.variableNumber number) else ofIndex (number.toNat - 1)

/-- The literal of a variable that is true when the variable has the value `polarity`. -/
def lit (v : Var) (polarity : Bool) : Lit :=
  ⟨2 * v.index + if polarity then 0 else 1, by
    have := v.index_lt
    split <;> omega⟩

def positive (v : Var) : Lit := v.lit true

def negative (v : Var) : Lit := v.lit false

instance : Ord Var := ⟨fun v w => compare v.index w.index⟩

instance : LT Var := ⟨fun v w => v.index < w.index⟩

instance (v w : Var) : Decidable (v < w) :=
  inferInstanceAs (Decidable (v.index < w.index))

instance : ToString Var := ⟨fun v => String.ofList (Numeral.natural v.number)⟩

theorem ext_index {v w : Var} (sameIndex : v.index = w.index) : v = w := by
  cases v
  cases w
  simpa using sameIndex

end Var

namespace Lit

def var (l : Lit) : Var :=
  ⟨l.code / 2, by
    have := l.code_lt
    omega⟩

def isPositive (l : Lit) : Bool := l.code % 2 == 0

def isNegative (l : Lit) : Bool := l.code % 2 == 1

def negate (l : Lit) : Lit :=
  ⟨if l.code % 2 = 0 then l.code + 1 else l.code - 1, by
    have := l.code_lt
    split <;> omega⟩

instance : Neg Lit := ⟨negate⟩

def negateIf (l : Lit) (flip : Bool) : Lit :=
  if flip then -l else l

def ofIndex (index : Nat) (polarity : Bool) : Except Fault Lit :=
  match Var.ofIndex index with
  | .ok v => .ok (v.lit polarity)
  | .error fault => .error fault

def toInt (l : Lit) : Int :=
  if l.isNegative then -(l.var.number : Int) else l.var.number

/-- The literal written as an integer, absent unless its magnitude is the number of a variable. -/
def ofInt? (n : Int) : Option Lit :=
  if inRange : 1 ≤ n.natAbs ∧ n.natAbs ≤ 0x10000000 then
    some (Var.lit ⟨n.natAbs - 1, by omega⟩ (0 < n))
  else
    none

def ofInt (n : Int) : Except Fault Lit :=
  if n = -0x8000000000000000 then
    .error .magnitude
  else
    match Var.ofNumber n.natAbs with
    | .ok v => .ok (v.lit (0 < n))
    | .error fault => .error fault

instance : Ord Lit := ⟨fun l m => compare l.code m.code⟩

instance : LT Lit := ⟨fun l m => l.code < m.code⟩

instance (l m : Lit) : Decidable (l < m) :=
  inferInstanceAs (Decidable (l.code < m.code))

def text (l : Lit) : List Char := Numeral.integer l.toInt

instance : ToString Lit := ⟨fun l => String.ofList l.text⟩

theorem ext_code {l m : Lit} (sameCode : l.code = m.code) : l = m := by
  cases l
  cases m
  simpa using sameCode

theorem code_negate (l : Lit) :
    (-l).code = if l.code % 2 = 0 then l.code + 1 else l.code - 1 := rfl

@[simp] theorem var_negate (l : Lit) : (-l).var = l.var := by
  apply Var.ext_index
  simp only [var, code_negate]
  split <;> omega

@[simp] theorem negate_negate (l : Lit) : - -l = l := by
  apply ext_code
  rw [code_negate (-l), code_negate l]
  split <;> split <;> omega

theorem negate_ne (l : Lit) : -l ≠ l := by
  intro same
  have sameCode := congrArg code same
  rw [code_negate] at sameCode
  split at sameCode <;> omega

@[simp] theorem var_lit (v : Var) (polarity : Bool) : (v.lit polarity).var = v := by
  apply Var.ext_index
  cases polarity <;> simp [var, Var.lit]
  omega

@[simp] theorem isPositive_lit (v : Var) (polarity : Bool) :
    (v.lit polarity).isPositive = polarity := by
  cases polarity <;> simp [isPositive, Var.lit]

@[simp] theorem isNegative_eq (l : Lit) : l.isNegative = !l.isPositive := by
  have evenOrOdd : l.code % 2 = 0 ∨ l.code % 2 = 1 := by omega
  rcases evenOrOdd with even | odd
  · simp [isNegative, isPositive, even]
  · simp [isNegative, isPositive, odd]

@[simp] theorem lit_var_isPositive (l : Lit) : l.var.lit l.isPositive = l := by
  apply ext_code
  have evenOrOdd : l.code % 2 = 0 ∨ l.code % 2 = 1 := by omega
  rcases evenOrOdd with even | odd
  · simp [Var.lit, var, isPositive, even]
    omega
  · simp [Var.lit, var, isPositive, odd]
    omega

@[simp] theorem isPositive_negate (l : Lit) : (-l).isPositive = !l.isPositive := by
  have evenOrOdd : l.code % 2 = 0 ∨ l.code % 2 = 1 := by omega
  simp only [isPositive, code_negate]
  rcases evenOrOdd with even | odd
  · rw [if_pos even, even, show (l.code + 1) % 2 = 1 by omega]
    rfl
  · rw [if_neg (by omega), odd, show (l.code - 1) % 2 = 0 by omega]
    rfl

theorem negate_lit (v : Var) (polarity : Bool) : -v.lit polarity = v.lit !polarity := by
  rw [← lit_var_isPositive (-v.lit polarity), var_negate, var_lit, isPositive_negate,
    isPositive_lit]

/-- Two literals of one variable are the same or each other's negation. -/
theorem eq_or_eq_negate {l m : Lit} (sameVar : l.var = m.var) : l = m ∨ l = -m := by
  have sameIndex : l.code / 2 = m.code / 2 := congrArg Var.index sameVar
  by_cases sameCode : l.code = m.code
  · exact .inl (ext_code sameCode)
  · refine .inr (ext_code ?_)
    rw [code_negate]
    split <;> omega

end Lit

@[simp] theorem Var.var_positive (v : Var) : v.positive.var = v := Lit.var_lit v true

theorem Var.negative_eq (v : Var) : v.negative = -v.positive := by
  rw [Var.negative, Var.positive, Lit.negate_lit]
  rfl

def bracketed (lits : List Lit) : String :=
  "[" ++ String.intercalate ", " (lits.map toString) ++ "]"

end Clausal
