import Mathlib.Data.Nat.Digits.Defs
import Clausal.Text.Numeral

/-!
# Reading and writing numerals

A numeral is a nonempty run of decimal digits, and its value is that of its digits in base ten.
The readers accept numerals after the signs they allow and give this value
(`integer?_eq_some_iff`), within the range of a machine word for `signedWord?_eq_some_iff` and
`unsignedWord?_eq_some_iff`.  What is written for a number is a numeral of its value.
-/

set_option autoImplicit false

namespace Clausal.Numeral

/-! ## Values -/

structure IsNumeral (digits : List Char) : Prop where
  ne_nil : digits ≠ []
  isDigit : ∀ c ∈ digits, c.isDigit = true

def value (digits : List Char) : Nat :=
  Nat.ofDigits 10 (digits.map fun c => c.toNat - '0'.toNat).reverse

inductive Signed : List Char → Int → Prop
  | bare {digits : List Char} (numeral : IsNumeral digits) : Signed digits (value digits)
  | plus {digits : List Char} (numeral : IsNumeral digits) : Signed ('+' :: digits) (value digits)
  | minus {digits : List Char} (numeral : IsNumeral digits) :
      Signed ('-' :: digits) (-(value digits : Int))

inductive Unsigned : List Char → Nat → Prop
  | bare {digits : List Char} (numeral : IsNumeral digits) : Unsigned digits (value digits)
  | plus {digits : List Char} (numeral : IsNumeral digits) : Unsigned ('+' :: digits) (value digits)

theorem value_cons (c : Char) (digits : List Char) :
    value (c :: digits) = (c.toNat - '0'.toNat) * 10 ^ digits.length + value digits := by
  rw [value, List.map_cons, List.reverse_cons, Nat.ofDigits_append, Nat.ofDigits_singleton,
    List.length_reverse, List.length_map, Nat.mul_comm, Nat.add_comm, value]

/-! ## Reading -/

theorem isDigit_iff {c : Char} : c.isDigit = true ↔ 48 ≤ c.toNat ∧ c.toNat ≤ 57 := by
  simp only [Char.isDigit, Bool.and_eq_true, decide_eq_true_eq, ge_iff_le, UInt32.le_iff_toNat_le]
  exact Iff.rfl

theorem digitValue?_of_isDigit {c : Char} (isDigit : c.isDigit = true) :
    digitValue? c = some (c.toNat - '0'.toNat) := by
  rw [digitValue?, if_pos (isDigit_iff.mp isDigit)]
  rfl

theorem digitValue?_eq_none {c : Char} (other : c.isDigit ≠ true) : digitValue? c = none := by
  rw [digitValue?, if_neg (mt isDigit_iff.mpr other)]

theorem digitsFrom?_of_isDigit {digits : List Char} (allDigits : ∀ c ∈ digits, c.isDigit = true)
    (start : Nat) :
    digitsFrom? start digits = some (start * 10 ^ digits.length + value digits) := by
  induction digits generalizing start with
  | nil => simp [digitsFrom?, value]
  | cons c rest inductionHypothesis =>
      have restDigits : ∀ d ∈ rest, d.isDigit = true := by
        intro d member
        exact allDigits d (List.mem_cons_of_mem c member)
      simp only [digitsFrom?, digitValue?_of_isDigit (allDigits c (by simp))]
      rw [inductionHypothesis restDigits, value_cons, List.length_cons, Nat.pow_succ]
      congr 1
      ring

theorem isDigit_of_digitsFrom? {digits : List Char} {start n : Nat}
    (read : digitsFrom? start digits = some n) : ∀ c ∈ digits, c.isDigit = true := by
  induction digits generalizing start with
  | nil => simp
  | cons c rest inductionHypothesis =>
      rw [digitsFrom?] at read
      by_cases isDigit : c.isDigit = true
      · rw [digitValue?_of_isDigit isDigit] at read
        intro d member
        rcases List.mem_cons.mp member with rfl | tail
        · exact isDigit
        · exact inductionHypothesis read d tail
      · rw [digitValue?_eq_none isDigit] at read
        cases read

theorem natural?_eq_some_iff {digits : List Char} {n : Nat} :
    natural? digits = some n ↔ IsNumeral digits ∧ value digits = n := by
  cases digits with
  | nil =>
      constructor
      · intro read
        cases read
      · rintro ⟨numeral, _⟩
        exact absurd rfl numeral.ne_nil
  | cons c rest =>
      constructor
      · intro read
        have allDigits := isDigit_of_digitsFrom? read
        have isValue := digitsFrom?_of_isDigit allDigits 0
        rw [Nat.zero_mul, Nat.zero_add] at isValue
        exact ⟨⟨by simp, allDigits⟩, Option.some.inj (isValue.symm.trans read)⟩
      · rintro ⟨numeral, rfl⟩
        have isValue := digitsFrom?_of_isDigit numeral.isDigit 0
        rwa [Nat.zero_mul, Nat.zero_add] at isValue

theorem IsNumeral.head_ne {digits : List Char} {c : Char} (numeral : IsNumeral (c :: digits)) :
    c ≠ '+' ∧ c ≠ '-' := by
  have isDigit := numeral.isDigit c (by simp)
  constructor
  · rintro rfl
    exact absurd isDigit (by decide)
  · rintro rfl
    exact absurd isDigit (by decide)

theorem integer?_minus (digits : List Char) :
    integer? ('-' :: digits) = (natural? digits).map fun n : Nat => -(n : Int) := by
  rw [integer?]
  cases natural? digits <;> rfl

theorem integer?_plus (digits : List Char) :
    integer? ('+' :: digits) = (natural? digits).map fun n : Nat => (n : Int) := by
  rw [integer?]
  cases natural? digits <;> rfl

theorem integer?_bare {token : List Char} (noMinus : ∀ digits, token ≠ '-' :: digits)
    (noPlus : ∀ digits, token ≠ '+' :: digits) :
    integer? token = (natural? token).map fun n : Nat => (n : Int) := by
  rw [integer?]
  · cases natural? token <;> rfl
  · exact noMinus
  · exact noPlus

theorem integer?_eq_some_iff {token : List Char} {n : Int} :
    integer? token = some n ↔ Signed token n := by
  constructor
  · intro read
    by_cases minus : ∃ digits, token = '-' :: digits
    · obtain ⟨digits, rfl⟩ := minus
      rw [integer?_minus] at read
      obtain ⟨m, isValue, rfl⟩ := Option.map_eq_some_iff.mp read
      obtain ⟨numeral, rfl⟩ := natural?_eq_some_iff.mp isValue
      exact .minus numeral
    by_cases plus : ∃ digits, token = '+' :: digits
    · obtain ⟨digits, rfl⟩ := plus
      rw [integer?_plus] at read
      obtain ⟨m, isValue, rfl⟩ := Option.map_eq_some_iff.mp read
      obtain ⟨numeral, rfl⟩ := natural?_eq_some_iff.mp isValue
      exact .plus numeral
    rw [integer?_bare (not_exists.mp minus) (not_exists.mp plus)] at read
    obtain ⟨m, isValue, rfl⟩ := Option.map_eq_some_iff.mp read
    obtain ⟨numeral, rfl⟩ := natural?_eq_some_iff.mp isValue
    exact .bare numeral
  · intro signed
    cases signed with
    | minus numeral =>
        rw [integer?_minus, natural?_eq_some_iff.mpr ⟨numeral, rfl⟩, Option.map_some]
    | plus numeral =>
        rw [integer?_plus, natural?_eq_some_iff.mpr ⟨numeral, rfl⟩, Option.map_some]
    | bare numeral =>
        have noMinus : ∀ digits, token ≠ '-' :: digits := by
          rintro digits rfl
          exact numeral.head_ne.2 rfl
        have noPlus : ∀ digits, token ≠ '+' :: digits := by
          rintro digits rfl
          exact numeral.head_ne.1 rfl
        rw [integer?_bare noMinus noPlus, natural?_eq_some_iff.mpr ⟨numeral, rfl⟩, Option.map_some]

theorem signedWord?_eq_some_iff {token : List Char} {n : Int} :
    signedWord? token = some n ↔
      Signed token n ∧ -0x8000000000000000 ≤ n ∧ n < 0x8000000000000000 := by
  rw [← integer?_eq_some_iff, signedWord?]
  cases integer? token with
  | none => simp
  | some m =>
      simp only [Option.some.injEq, Option.ite_none_right_eq_some]
      constructor
      · rintro ⟨inRange, rfl⟩
        exact ⟨rfl, inRange⟩
      · rintro ⟨rfl, inRange⟩
        exact ⟨inRange, rfl⟩

theorem unsignedWord?_plus (digits : List Char) :
    unsignedWord? ('+' :: digits) = (natural? digits).filter (· < 0x10000000000000000) := by
  rw [unsignedWord?]
  cases natural? digits with
  | none => rfl
  | some n => simp [Option.filter]

theorem unsignedWord?_bare {token : List Char} (noPlus : ∀ digits, token ≠ '+' :: digits) :
    unsignedWord? token = (natural? token).filter (· < 0x10000000000000000) := by
  rw [unsignedWord?]
  · cases natural? token with
    | none => rfl
    | some n => simp [Option.filter]
  · exact noPlus

theorem unsignedWord?_eq_some_iff {token : List Char} {n : Nat} :
    unsignedWord? token = some n ↔ Unsigned token n ∧ n < 0x10000000000000000 := by
  constructor
  · intro read
    by_cases plus : ∃ digits, token = '+' :: digits
    · obtain ⟨digits, rfl⟩ := plus
      rw [unsignedWord?_plus] at read
      obtain ⟨isValue, inRange⟩ := Option.filter_eq_some_iff.mp read
      obtain ⟨numeral, rfl⟩ := natural?_eq_some_iff.mp isValue
      exact ⟨.plus numeral, by simpa using inRange⟩
    rw [unsignedWord?_bare (not_exists.mp plus)] at read
    obtain ⟨isValue, inRange⟩ := Option.filter_eq_some_iff.mp read
    obtain ⟨numeral, rfl⟩ := natural?_eq_some_iff.mp isValue
    exact ⟨.bare numeral, by simpa using inRange⟩
  · rintro ⟨unsigned, inRange⟩
    cases unsigned with
    | plus numeral =>
        rw [unsignedWord?_plus, Option.filter_eq_some_iff, natural?_eq_some_iff]
        exact ⟨⟨numeral, rfl⟩, by simpa using inRange⟩
    | bare numeral =>
        have noPlus : ∀ digits, token ≠ '+' :: digits := by
          rintro digits rfl
          exact numeral.head_ne.1 rfl
        rw [unsignedWord?_bare noPlus, Option.filter_eq_some_iff, natural?_eq_some_iff]
        exact ⟨⟨numeral, rfl⟩, by simpa using inRange⟩

/-! ## Writing -/

theorem toNat_digitChar : ∀ digit : Fin 10, (digitChar digit).toNat = 48 + digit := by
  decide

theorem isDigit_digitChar {digit : Nat} (small : digit < 10) :
    (digitChar digit).isDigit = true := by
  have code := toNat_digitChar ⟨digit, small⟩
  rw [isDigit_iff, code]
  exact ⟨by omega, by simp only; omega⟩

theorem value_append_digit (digits : List Char) {digit : Nat} (small : digit < 10) :
    value (digits ++ [digitChar digit]) = 10 * value digits + digit := by
  have code : (digitChar digit).toNat = 48 + digit := toNat_digitChar ⟨digit, small⟩
  have zero : '0'.toNat = 48 := rfl
  simp only [value, List.map_append, List.reverse_append, Nat.ofDigits_append, List.map_cons,
    List.map_nil, List.reverse_singleton, Nat.ofDigits_singleton, List.length_singleton,
    Nat.pow_one, code, zero]
  omega

theorem natural_spec (n : Nat) : IsNumeral (natural n) ∧ value (natural n) = n := by
  fun_induction natural n with
  | case1 n small =>
      refine ⟨⟨by simp, ?_⟩, ?_⟩
      · intro c member
        rw [List.mem_singleton.mp member]
        exact isDigit_digitChar small
      · have isValue := value_append_digit [] small
        rwa [List.nil_append, show value [] = 0 from rfl, Nat.mul_zero, Nat.zero_add] at isValue
  | case2 n large inductionHypothesis =>
      have small : n % 10 < 10 := Nat.mod_lt n (by decide)
      obtain ⟨numeral, isValue⟩ := inductionHypothesis
      refine ⟨⟨by simp, ?_⟩, ?_⟩
      · intro c member
        rcases List.mem_append.mp member with front | last
        · exact numeral.isDigit c front
        · rw [List.mem_singleton.mp last]
          exact isDigit_digitChar small
      · rw [value_append_digit _ small, isValue]
        omega

theorem signed_integer (n : Int) : Signed (integer n) n := by
  cases n with
  | ofNat m =>
      have signed := Signed.bare (natural_spec m).1
      rwa [(natural_spec m).2] at signed
  | negSucc m =>
      have signed := Signed.minus (natural_spec (m + 1)).1
      rwa [(natural_spec (m + 1)).2] at signed

theorem unsigned_natural (n : Nat) : Unsigned (natural n) n := by
  have unsigned := Unsigned.bare (natural_spec n).1
  rwa [(natural_spec n).2] at unsigned

end Clausal.Numeral
