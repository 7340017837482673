import Mathlib.Data.Nat.Bitwise
import Clausal.Proofs.LitNumbers

/-!
# Literals in machine words

A variable fits a word of 32 bits that holds its index, and a literal one that holds its code: the
index, shifted by one bit, and below it a bit that is set if the literal is negative.  Indexes and
numbers come in words of 64 bits.  Arithmetic on these stops when its exact result has no word, but
shifts and conversions to a narrower word drop bits silently.

No bit of a variable or a literal is ever dropped and no arithmetic on them stops: the words do what
is done to the variables and literals that they hold (`shows_packed`, `ofIndex_eq`, `ofNumber_eq`,
`ofNumber?_eq`).
-/

set_option autoImplicit false

namespace Clausal

inductive WordFault
  | precondition (fault : Fault)
  /-- The exact result of an addition or subtraction has no word. -/
  | overflow
  deriving DecidableEq, Repr

namespace Word

def add (x y : Int64) : Except WordFault Int64 :=
  if (x + y).toInt = x.toInt + y.toInt then .ok (x + y) else .error .overflow

def sub (x y : UInt64) : Except WordFault UInt64 :=
  if y ≤ x then .ok (x - y) else .error .overflow

/-- The least integer has no magnitude in 64 bits. -/
def neg (x : Int64) : Except WordFault Int64 :=
  if x = Int64.minValue then .error (.precondition .magnitude) else .ok (-x)

def abs (x : Int64) : Except WordFault Int64 := if x < 0 then neg x else .ok x

end Word

structure PackedVar where
  word : UInt32
  deriving DecidableEq

structure PackedLit where
  word : UInt32
  deriving DecidableEq

instance : Ord PackedVar := ⟨fun v w => compare v.word w.word⟩

instance : Ord PackedLit := ⟨fun l m => compare l.word m.word⟩

namespace PackedVar

def last : PackedVar := ⟨(0xFFFFFFFF : UInt32) >>> 4⟩

def index (v : PackedVar) : UInt64 := v.word.toUInt64

def maxCount : UInt64 := last.index + 1

/-- The variable with an index.  The index is compared before it loses its upper half. -/
def ofIndex (index : UInt64) : Except WordFault PackedVar :=
  if index < maxCount then .ok ⟨index.toUInt32⟩
  else .error (.precondition (.variableIndex index.toNat))

def ofNumber (number : Int64) : Except WordFault PackedVar :=
  if 0 < number then do ofIndex (← Word.sub number.toUInt64 1)
  else .error (.precondition (.variableNumber number.toInt))

def number (v : PackedVar) : Except WordFault Int64 := Word.add v.index.toInt64 1

def lit (v : PackedVar) (polarity : Bool) : PackedLit :=
  ⟨v.word <<< 1 ||| (!polarity).toUInt32⟩

end PackedVar

namespace PackedLit

def var (l : PackedLit) : PackedVar := ⟨l.word >>> 1⟩

def isNegative (l : PackedLit) : Bool := l.word &&& 1 == 1

def isPositive (l : PackedLit) : Bool := l.word &&& 1 == 0

def code (l : PackedLit) : UInt64 := l.word.toUInt64

def negate (l : PackedLit) : PackedLit := ⟨l.word ^^^ 1⟩

def negateIf (l : PackedLit) (flip : Bool) : PackedLit := ⟨l.word ^^^ flip.toUInt32⟩

def ofNumber (number : Int64) : Except WordFault PackedLit := do
  let v ← PackedVar.ofNumber (← Word.abs number)
  return v.lit (0 < number)

def number (l : PackedLit) : Except WordFault Int64 :=
  if l.isNegative then do Word.neg (← l.var.number) else l.var.number

/-- The literal of a number, absent unless the number has a magnitude and this is the number of a
variable. -/
def ofNumber? (number : Int64) : Except WordFault (Option PackedLit) :=
  match Word.abs number with
  | .error _ => .ok none
  | .ok magnitude => do
      if magnitude ≠ 0 ∧ magnitude ≤ (← PackedVar.last.number) then
        return some (← ofNumber number)
      else
        return none

end PackedLit

def Var.packed (v : Var) : PackedVar := ⟨.ofNat v.index⟩

def Lit.packed (l : Lit) : PackedLit := ⟨.ofNat l.code⟩

@[simp] theorem Var.toNat_packed (v : Var) : v.packed.word.toNat = v.index :=
  UInt32.toNat_ofNat_of_lt' (Nat.lt_trans v.index_lt (by decide))

@[simp] theorem Lit.toNat_packed (l : Lit) : l.packed.word.toNat = l.code :=
  UInt32.toNat_ofNat_of_lt' (Nat.lt_trans l.code_lt (by decide))

namespace PackedVar

theorem ext_toNat {v w : PackedVar} (sameIndex : v.word.toNat = w.word.toNat) : v = w := by
  cases v
  cases w
  exact congrArg mk (UInt32.toNat_inj.mp sameIndex)

end PackedVar

namespace PackedLit

theorem ext_toNat {l m : PackedLit} (sameCode : l.word.toNat = m.word.toNat) : l = m := by
  cases l
  cases m
  exact congrArg mk (UInt32.toNat_inj.mp sameCode)

end PackedLit

/-! ## Bits -/

theorem toNat_shiftRight_one (w : UInt32) : (w >>> 1).toNat = w.toNat / 2 := by
  rw [UInt32.toNat_shiftRight]
  exact Nat.shiftRight_one w.toNat

theorem toNat_and_one (w : UInt32) : (w &&& 1).toNat = w.toNat % 2 := by
  rw [UInt32.toNat_and]
  exact Nat.and_one_is_mod w.toNat

theorem toNat_xor_one (w : UInt32) :
    (w ^^^ 1).toNat = if w.toNat % 2 = 0 then w.toNat + 1 else w.toNat - 1 := by
  rw [UInt32.toNat_xor]
  change w.toNat ^^^ 1 = _
  split
  · next even => exact Nat.xor_one_of_even (Nat.even_iff.mpr even)
  · next odd => exact Nat.xor_one_of_odd (Nat.not_even_iff_odd.mp (mt Nat.even_iff.mp odd))

theorem toNat_toUInt32 (b : Bool) : b.toUInt32.toNat = b.toNat := by
  cases b <;> rfl

theorem toNat_shiftLeft_one_or {w : UInt32} (fits : w.toNat < 2 ^ 31) (bit : Bool) :
    (w <<< 1 ||| bit.toUInt32).toNat = 2 * w.toNat + bit.toNat := by
  have bitBelow : bit.toNat < 2 ^ 1 := bit.toNat_lt
  rw [UInt32.toNat_or, UInt32.toNat_shiftLeft, toNat_toUInt32]
  -- The shift drops no bit, and the bit below it is free.
  change (w.toNat <<< 1) % 2 ^ 32 ||| bit.toNat = _
  rw [Nat.shiftLeft_eq, Nat.mod_eq_of_lt (by omega), Nat.mul_comm,
    ← Nat.two_pow_add_eq_or_of_lt bitBelow]

/-! ## Arithmetic -/

namespace Word

theorem toInt_eq_of_bmod {x : Int64} {value : Int} (isBmod : x.toInt = value.bmod (2 ^ 64))
    (above : -2 ^ 63 ≤ value) (below : value < 2 ^ 63) : x.toInt = value := by
  rw [isBmod]
  exact Int.bmod_eq_of_le (by omega) (by omega)

theorem add_eq {x y : Int64} (above : -2 ^ 63 ≤ x.toInt + y.toInt)
    (below : x.toInt + y.toInt < 2 ^ 63) :
    ∃ z, add x y = .ok z ∧ z.toInt = x.toInt + y.toInt := by
  have value := toInt_eq_of_bmod (Int64.toInt_add x y) above below
  exact ⟨x + y, by rw [add, if_pos value], value⟩

theorem neg_eq {x : Int64} (notLeast : x ≠ Int64.minValue) :
    ∃ z, neg x = .ok z ∧ z.toInt = -x.toInt := by
  have lower := x.le_toInt
  have upper := x.toInt_lt
  have notLower : x.toInt ≠ -2 ^ 63 := by
    intro least
    exact notLeast (Int64.toInt_inj.mp (least.trans Int64.toInt_minValue.symm))
  have value := toInt_eq_of_bmod (Int64.toInt_neg x) (by omega) (by omega)
  exact ⟨-x, by rw [neg, if_neg notLeast], value⟩

theorem zero_lt_iff {x : Int64} : 0 < x ↔ 0 < x.toInt := Int64.lt_iff_toInt_lt

theorem lt_zero_iff {x : Int64} : x < 0 ↔ x.toInt < 0 := Int64.lt_iff_toInt_lt

theorem abs_eq {x : Int64} (notLeast : x ≠ Int64.minValue) :
    ∃ z, abs x = .ok z ∧ z.toInt = x.toInt.natAbs := by
  by_cases negative : x < 0
  · have below := lt_zero_iff.mp negative
    obtain ⟨z, negated, value⟩ := neg_eq notLeast
    refine ⟨z, by rw [abs, if_pos negative, negated], ?_⟩
    omega
  · have notBelow := mt lt_zero_iff.mpr negative
    refine ⟨x, by rw [abs, if_neg negative], ?_⟩
    omega

theorem sub_eq {x y : UInt64} (atMost : y.toNat ≤ x.toNat) :
    ∃ z, sub x y = .ok z ∧ z.toNat = x.toNat - y.toNat := by
  have below : y ≤ x := UInt64.le_iff_toNat_le.mpr atMost
  exact ⟨x - y, by rw [sub, if_pos below], UInt64.toNat_sub_of_le x y below⟩

theorem toInt_toInt64 {x : UInt64} (fits : x.toNat < 2 ^ 63) : x.toInt64.toInt = x.toNat := by
  rw [← Int64.toInt_toBitVec, UInt64.toBitVec_toInt64, BitVec.toInt_eq_toNat_of_lt]
  · rfl
  · change 2 * x.toNat < 2 ^ 64
    omega

theorem toNat_toUInt64 {x : Int64} (nonnegative : 0 ≤ x.toInt) :
    x.toUInt64.toNat = x.toInt.toNat := by
  rw [Int64.toNat_toUInt64_of_le (Int64.le_iff_toInt_le.mpr nonnegative), Int64.toNat_toInt]

end Word

/-! ## What the words hold -/

theorem lit_packed (v : Var) (polarity : Bool) :
    v.packed.lit polarity = (v.lit polarity).packed := by
  have inRange := v.index_lt
  have fits : v.packed.word.toNat < 2 ^ 31 := by
    rw [Var.toNat_packed]
    omega
  apply PackedLit.ext_toNat
  rw [PackedVar.lit, toNat_shiftLeft_one_or fits, Var.toNat_packed, Lit.toNat_packed]
  cases polarity <;> rfl

theorem var_packed (l : Lit) : l.packed.var = l.var.packed := by
  apply PackedVar.ext_toNat
  rw [PackedLit.var, toNat_shiftRight_one, Lit.toNat_packed, Var.toNat_packed]
  rfl

theorem isNegative_packed (l : Lit) : l.packed.isNegative = l.isNegative := by
  rw [PackedLit.isNegative, Lit.isNegative, Bool.eq_iff_iff, beq_iff_eq, beq_iff_eq,
    ← UInt32.toNat_inj, toNat_and_one, Lit.toNat_packed]
  rfl

theorem isPositive_packed (l : Lit) : l.packed.isPositive = l.isPositive := by
  rw [PackedLit.isPositive, Lit.isPositive, Bool.eq_iff_iff, beq_iff_eq, beq_iff_eq,
    ← UInt32.toNat_inj, toNat_and_one, Lit.toNat_packed]
  rfl

theorem negate_packed (l : Lit) : l.packed.negate = (-l).packed := by
  apply PackedLit.ext_toNat
  rw [PackedLit.negate, toNat_xor_one, Lit.toNat_packed, Lit.toNat_packed, Lit.code_negate]

theorem negateIf_packed (l : Lit) (flip : Bool) :
    l.packed.negateIf flip = (l.negateIf flip).packed := by
  cases flip with
  | false => exact congrArg PackedLit.mk UInt32.xor_zero
  | true => exact negate_packed l

theorem toNat_index_packed (v : Var) : v.packed.index.toNat = v.index := by
  rw [PackedVar.index, UInt32.toNat_toUInt64, Var.toNat_packed]

theorem toNat_code_packed (l : Lit) : l.packed.code.toNat = l.code := by
  rw [PackedLit.code, UInt32.toNat_toUInt64, Lit.toNat_packed]

theorem number_packed_var (v : Var) :
    ∃ n, v.packed.number = .ok n ∧ n.toInt = v.number := by
  have inRange := v.index_lt
  have index : v.packed.index.toInt64.toInt = v.index := by
    rw [Word.toInt_toInt64, toNat_index_packed]
    rw [toNat_index_packed]
    omega
  have one : (1 : Int64).toInt = 1 := rfl
  obtain ⟨n, added, value⟩ := Word.add_eq (x := v.packed.index.toInt64) (y := 1)
    (by omega) (by omega)
  refine ⟨n, added, ?_⟩
  rw [value, index, Var.number]
  rfl

theorem number_packed (l : Lit) : ∃ n, l.packed.number = .ok n ∧ n.toInt = l.toInt := by
  obtain ⟨n, numbered, value⟩ := number_packed_var l.var
  rw [PackedLit.number, isNegative_packed, var_packed, numbered, Lit.toInt]
  split
  · have notLeast : n ≠ Int64.minValue := by
      intro least
      rw [least, Int64.toInt_minValue] at value
      omega
    obtain ⟨negated, isNegated, negatedValue⟩ := Word.neg_eq notLeast
    exact ⟨negated, isNegated, by rw [negatedValue, value]⟩
  · exact ⟨n, rfl, value⟩

/-! ## Making words -/

theorem PackedVar.lt_maxCount_iff {index : UInt64} :
    index < maxCount ↔ index.toNat < 0x10000000 := UInt64.lt_iff_toNat_lt

theorem PackedVar.ofIndex_eq (index : UInt64) :
    ofIndex index = ((Var.ofIndex index.toNat).map Var.packed).mapError .precondition := by
  rw [ofIndex, Var.ofIndex]
  by_cases inRange : index.toNat < 0x10000000
  · have sameWord : (⟨index.toUInt32⟩ : PackedVar) = Var.packed ⟨index.toNat, inRange⟩ := by
      apply ext_toNat
      rw [Var.toNat_packed, UInt64.toNat_toUInt32]
      exact Nat.mod_eq_of_lt (by omega)
    rw [if_pos (lt_maxCount_iff.mpr inRange), dif_pos inRange, sameWord]
    rfl
  · rw [if_neg (mt lt_maxCount_iff.mp inRange), dif_neg inRange]
    rfl

theorem PackedVar.ofIndex_of_ge {index : UInt64} (beyond : 2 ^ 28 ≤ index.toNat) :
    ofIndex index = .error (.precondition (.variableIndex index.toNat)) := by
  have refused : Var.ofIndex index.toNat = .error (.variableIndex index.toNat) :=
    dif_neg (Nat.not_lt_of_le beyond)
  rw [ofIndex_eq, refused]
  rfl

theorem PackedVar.ofIndex_of_lt {index : UInt64} (inRange : index.toNat < 2 ^ 28) :
    ∃ v : Var, ofIndex index = .ok v.packed ∧ v.packed.index = index ∧
      Var.ofIndex index.toNat = .ok v ∧ v.index = index.toNat := by
  have isVar : Var.ofIndex index.toNat = .ok ⟨index.toNat, inRange⟩ := dif_pos inRange
  refine ⟨⟨index.toNat, inRange⟩, ?_, ?_, isVar, rfl⟩
  · rw [ofIndex_eq, isVar]
    rfl
  · exact UInt64.toNat_inj.mp (toNat_index_packed _)

theorem PackedVar.ofNumber_eq (number : Int64) :
    ofNumber number = ((Var.ofNumber number.toInt).map Var.packed).mapError .precondition := by
  rw [ofNumber, Var.ofNumber]
  by_cases positive : 0 < number
  · have above := Word.zero_lt_iff.mp positive
    have bits := Word.toNat_toUInt64 (Int.le_of_lt above)
    have one : (1 : UInt64).toNat = 1 := rfl
    obtain ⟨index, subtracted, value⟩ := Word.sub_eq (x := number.toUInt64) (y := 1) (by omega)
    rw [if_pos positive, if_neg (by omega), subtracted]
    change ofIndex index = _
    rw [ofIndex_eq, value, bits, one]
  · have notAbove := mt Word.zero_lt_iff.mpr positive
    rw [if_neg positive, if_pos (by omega)]
    rfl

theorem PackedLit.ofNumber_eq (number : Int64) :
    ofNumber number = ((Lit.ofInt number.toInt).map Lit.packed).mapError .precondition := by
  by_cases least : number = Int64.minValue
  · subst least
    decide
  · have notLeast : number.toInt ≠ -0x8000000000000000 := by
      intro same
      exact least (Int64.toInt_inj.mp (same.trans Int64.toInt_minValue.symm))
    have sign : decide (0 < number) = decide (0 < number.toInt) :=
      decide_eq_decide.mpr Word.zero_lt_iff
    obtain ⟨magnitude, absolute, value⟩ := Word.abs_eq least
    rw [ofNumber, Lit.ofInt, absolute, if_neg notLeast]
    change (PackedVar.ofNumber magnitude >>= _) = _
    rw [PackedVar.ofNumber_eq, value]
    cases Var.ofNumber number.toInt.natAbs with
    | error fault => rfl
    | ok v =>
        change Except.ok (v.packed.lit _) = _
        rw [lit_packed, sign]
        rfl

theorem Lit.ofInt_eq_of_ofInt? {n : Int} {l : Lit} (named : ofInt? n = some l) :
    ofInt n = .ok l := by
  rw [ofInt?] at named
  split at named
  · next inRange =>
      have inside : (n.natAbs : Int).toNat - 1 < 0x10000000 := by omega
      rw [ofInt, if_neg (by omega), Var.ofNumber, if_neg (by omega), Var.ofIndex, dif_pos inside]
      cases named
      rfl
  · cases named

theorem Lit.exists_ofInt?_iff {n : Int} :
    (∃ l, ofInt? n = some l) ↔ 1 ≤ n.natAbs ∧ n.natAbs ≤ 2 ^ 28 := by
  rw [← Option.ne_none_iff_exists', Ne, ofInt?_eq_none_iff, not_not]

theorem PackedLit.ofNumber?_eq (number : Int64) :
    ofNumber? number = .ok ((Lit.ofInt? number.toInt).map Lit.packed) := by
  by_cases least : number = Int64.minValue
  · subst least
    decide
  · obtain ⟨magnitude, absolute, value⟩ := Word.abs_eq least
    obtain ⟨lastNumber, numbered, lastValue⟩ := number_packed_var Var.last
    have isLast : PackedVar.last = Var.last.packed := by decide
    have atLast : (Var.last.number : Int) = 2 ^ 28 := by decide
    have inRange : magnitude ≠ 0 ∧ magnitude ≤ lastNumber ↔
        1 ≤ number.toInt.natAbs ∧ number.toInt.natAbs ≤ 2 ^ 28 := by
      have zero : (0 : Int64).toInt = 0 := rfl
      rw [Ne, ← Int64.toInt_inj, Int64.le_iff_toInt_le, value, lastValue, atLast, zero]
      omega
    -- The bound is computed in words as well, and this computation succeeds.
    rw [ofNumber?, absolute, isLast]
    change (Var.last.packed.number >>= fun last =>
      if magnitude ≠ 0 ∧ magnitude ≤ last then _ else _) = _
    rw [numbered]
    change (if magnitude ≠ 0 ∧ magnitude ≤ lastNumber then _ else _) = _
    by_cases holds : magnitude ≠ 0 ∧ magnitude ≤ lastNumber
    · obtain ⟨l, named⟩ := Lit.exists_ofInt?_iff.mpr (inRange.mp holds)
      rw [if_pos holds, ofNumber_eq, Lit.ofInt_eq_of_ofInt? named, named]
      rfl
    · have absent := Lit.ofInt?_eq_none_iff.mpr (mt inRange.mpr holds)
      rw [if_neg holds, absent]
      rfl

/-! ## Order -/

theorem compare_words (x y : UInt32) : compare x y = compare x.toNat y.toNat := by
  change compareOfLessAndEq x y = compareOfLessAndEq x.toNat y.toNat
  simp only [compareOfLessAndEq, UInt32.lt_iff_toNat_lt, ← UInt32.toNat_inj]

theorem compare_packed (l m : Lit) : compare l.packed m.packed = compare l.code m.code := by
  rw [← l.toNat_packed, ← m.toNat_packed]
  exact compare_words l.packed.word m.packed.word

theorem compare_packed_var (l m : Lit) :
    compare l.packed.var m.packed.var = compare l.var m.var := by
  change _ = compare l.var.index m.var.index
  rw [var_packed, var_packed, ← l.var.toNat_packed, ← m.var.toNat_packed]
  exact compare_words l.var.packed.word m.var.packed.word

/-- Codes compare the variables first, and then put the positive literal before the negative
one. -/
theorem compare_code (l m : Lit) :
    compare l.code m.code = (compare l.var m.var).then (compare l.isNegative m.isNegative) := by
  change compare l.code m.code = (compare (l.code / 2) (m.code / 2)).then
    (compare (l.code % 2 == 1) (m.code % 2 == 1))
  rcases Nat.lt_trichotomy (l.code / 2) (m.code / 2) with below | same | above
  · rw [Nat.compare_eq_lt.mpr below, Nat.compare_eq_lt.mpr (by omega)]
    rfl
  · rw [Nat.compare_eq_eq.mpr same]
    rcases Nat.mod_two_eq_zero_or_one l.code with left | left <;>
      rcases Nat.mod_two_eq_zero_or_one m.code with right | right <;> rw [left, right]
    · exact Nat.compare_eq_eq.mpr (by omega)
    · exact Nat.compare_eq_lt.mpr (by omega)
    · exact Nat.compare_eq_gt.mpr (by omega)
    · exact Nat.compare_eq_eq.mpr (by omega)
  · rw [Nat.compare_eq_gt.mpr above, Nat.compare_eq_gt.mpr (by omega)]
    rfl

/-- What is asked of a word, or done to it, is what is asked of a literal, or done to it. -/
structure PackedLit.Shows (word : PackedLit) (l : Lit) : Prop where
  code_eq : word.code.toNat = l.code
  var_eq : word.var = l.var.packed
  isPositive_eq : word.isPositive = l.isPositive
  isNegative_eq : word.isNegative = l.isNegative
  number_eq : ∃ n, word.number = .ok n ∧ n.toInt = l.toInt
  varNumber_eq : ∃ n, word.var.number = .ok n ∧ n.toInt = l.var.number
  lit_eq : ∀ polarity, word.var.lit polarity = (l.var.lit polarity).packed
  negate_eq : word.negate = (-l).packed
  negateIf_eq : ∀ flip, word.negateIf flip = (l.negateIf flip).packed

theorem shows_packed (l : Lit) : l.packed.Shows l where
  code_eq := toNat_code_packed l
  var_eq := var_packed l
  isPositive_eq := isPositive_packed l
  isNegative_eq := isNegative_packed l
  number_eq := number_packed l
  varNumber_eq := var_packed l ▸ number_packed_var l.var
  lit_eq := var_packed l ▸ lit_packed l.var
  negate_eq := negate_packed l
  negateIf_eq := negateIf_packed l

theorem number_eq_of_toInt {l : Lit} {n : Int64} (sameValue : l.toInt = n.toInt) :
    l.packed.number = .ok n := by
  obtain ⟨m, numbered, value⟩ := number_packed l
  rw [numbered, Int64.toInt_inj.mp (value.trans sameValue)]

theorem Lit.isNegative_iff_toInt_neg (l : Lit) : l.isNegative = true ↔ l.toInt < 0 := by
  rw [toInt, Var.number]
  split
  · next negative => exact iff_of_true negative (by omega)
  · next notNegative => exact iff_of_false notNegative (by omega)

/-- Words of 64 and of 32 bits read, write, negate and compare literals without a fault and without
losing a bit.  A 64-bit integer is read as a literal exactly when its magnitude is the number of a
variable, and the literal is written as this integer.  A 64-bit index names a variable exactly when
it is below `2^28`, and all others are refused before they are narrowed.  Negation changes the
polarity only and undoes itself, and codes are in the order of the variables, with the positive
literal of each before the negative one. -/
theorem packing_exact :
    (∀ n : Int64,
      PackedLit.ofNumber? n = .ok ((Lit.ofInt? n.toInt).map Lit.packed) ∧
      ((∃ l, Lit.ofInt? n.toInt = some l) ↔ 1 ≤ n.toInt.natAbs ∧ n.toInt.natAbs ≤ 2 ^ 28) ∧
      ∀ l, Lit.ofInt? n.toInt = some l →
        l.packed.number = .ok n ∧ l.toInt = n.toInt ∧ l.var.number = n.toInt.natAbs ∧
        (l.isNegative = true ↔ n.toInt < 0)) ∧
    (∀ l : Lit, l.packed.Shows l ∧ Lit.ofInt? l.toInt = some l ∧
      ∃ n, l.packed.number = .ok n ∧ PackedLit.ofNumber? n = .ok (some l.packed)) ∧
    (∀ index : UInt64,
      (2 ^ 28 ≤ index.toNat →
        PackedVar.ofIndex index = .error (.precondition (.variableIndex index.toNat))) ∧
      (index.toNat < 2 ^ 28 →
        ∃ v : Var, PackedVar.ofIndex index = .ok v.packed ∧ v.packed.index = index ∧
          Var.ofIndex index.toNat = .ok v ∧ v.index = index.toNat)) ∧
    (∀ l : Lit, - -l = l ∧ (-l).var = l.var ∧ (-l).isNegative = !l.isNegative) ∧
    ∀ l m : Lit, compare l.packed m.packed = compare l.code m.code ∧
      compare l.packed.var m.packed.var = compare l.var m.var ∧
      compare l.code m.code =
        (compare l.var m.var).then (compare l.isNegative m.isNegative) := by
  refine ⟨fun n => ⟨PackedLit.ofNumber?_eq n, Lit.exists_ofInt?_iff, fun l named => ?_⟩,
    fun l => ⟨shows_packed l, Lit.ofInt?_eq_some_iff.mpr rfl, ?_⟩,
    fun index => ⟨PackedVar.ofIndex_of_ge, PackedVar.ofIndex_of_lt⟩,
    fun l => ⟨Lit.negate_negate l, Lit.var_negate l, by simp⟩,
    fun l m => ⟨compare_packed l m, compare_packed_var l m, compare_code l m⟩⟩
  · have value := Lit.ofInt?_eq_some_iff.mp named
    refine ⟨number_eq_of_toInt value, value, ?_, ?_⟩
    · rw [← value, Lit.natAbs_toInt]
    · rw [← value, Lit.isNegative_iff_toInt_neg]
  · obtain ⟨n, numbered, value⟩ := number_packed l
    refine ⟨n, numbered, ?_⟩
    rw [PackedLit.ofNumber?_eq, value, Lit.ofInt?_eq_some_iff.mpr rfl]
    rfl

example : [0, 2 ^ 28, 2 ^ 28 + 1, -2 ^ 32 - 1, Int64.minValue].map PackedLit.ofNumber? =
    [.ok none, .ok (some ⟨0x1FFFFFFE⟩), .ok none, .ok none, .ok none] := by
  decide

end Clausal
