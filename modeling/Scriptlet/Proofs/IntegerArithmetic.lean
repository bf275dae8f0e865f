import Mathlib.Data.Rat.Floor
import Scriptlet.Value
import Scriptlet.Proofs.IntegerNumeral

/-!
Arithmetic on values that are integers in decimal. Sums, differences, products and quotients are
exact wherever 64 bits hold the exact result, and give way to floating point elsewhere; remainders
have the sign of the dividend, shifts move by the count modulo 64. Only a division by zero fails.
-/

namespace Scriptlet

namespace Number

variable {x y : Int64}

/-! ### Shifts -/

/-- The count of a shift is taken modulo 64, also below zero. -/
theorem toNat_shiftCount (y : Int64) :
    ((shiftCount y).toBitVec.smod 64).toNat = (y.toInt % 64).toNat := by
  have low : (shiftCount y).toBitVec.toNat = y.toBitVec.toNat % 64 := by
    rw [shiftCount, Int64.toBitVec_and, BitVec.toNat_and]
    exact Nat.and_two_pow_sub_one_eq_mod _ 6
  have count : (shiftCount y).toBitVec.toInt = (y.toBitVec.toNat % 64 : Nat) := by
    rw [BitVec.toInt_eq_toNat_of_lt (by omega), low]
  have same : (shiftCount y).toBitVec.smod 64 = (shiftCount y).toBitVec := by
    have width : (64 : BitVec 64).toInt = 64 := by decide
    apply BitVec.eq_of_toInt_eq
    rw [BitVec.toInt_smod, count, width, Int.fmod_eq_of_lt] <;> omega
  have signed : y.toInt = (y.toBitVec.toNat : Int) ∨ y.toInt = y.toBitVec.toNat - 2 ^ 64 := by
    rw [Int64.toInt, BitVec.toInt_eq_toNat_cond]
    split
    · exact .inl rfl
    · exact .inr rfl
  rw [same, low]
  omega

theorem toInt_shiftLeft (x y : Int64) :
    (x <<< shiftCount y).toInt = (x.toInt * 2 ^ (y.toInt % 64).toNat).bmod (2 ^ 64) := by
  have signed : x.toInt = (x.toBitVec.toNat : Int).bmod (2 ^ 64) := BitVec.toInt_eq_toNat_bmod _
  rw [signed, Int.bmod_mul_bmod]
  show (x <<< shiftCount y).toBitVec.toInt = _
  rw [Int64.toBitVec_shiftLeft, BitVec.shiftLeft_eq', BitVec.toInt_shiftLeft, toNat_shiftCount,
    Nat.shiftLeft_eq]
  push_cast
  rfl

theorem toInt_shiftRight (x y : Int64) :
    (x >>> shiftCount y).toInt = ⌊(x.toInt : ℚ) / 2 ^ (y.toInt % 64).toNat⌋ := by
  have floor := Rat.floor_intCast_div_natCast x.toInt (2 ^ (y.toInt % 64).toNat)
  push_cast at floor
  rw [floor]
  show (x >>> shiftCount y).toBitVec.toInt = _
  rw [Int64.toBitVec_shiftRight, BitVec.sshiftRight_eq', BitVec.toInt_sshiftRight,
    toNat_shiftCount, Int.shiftRight_eq_div_pow]
  push_cast
  rfl

/-! ### Remainders -/

theorem fits_tmod (nonzero : y.toInt ≠ 0) : Fits (x.toInt.tmod y.toInt) := by
  have size := Int.natAbs_tmod x.toInt y.toInt
  have small := Nat.mod_lt x.toInt.natAbs (Int.natAbs_pos.mpr nonzero)
  have low := y.le_toInt
  have high := y.toInt_lt
  constructor <;> omega

end Number

namespace Value

open Number

variable {l r : String} {x y : Int64}

def Writes (text : String) (n : Int64) : Prop :=
  ∃ t : IntegerText, t.radix = .ten ∧ t.text = text ∧ t.value = n.toInt

theorem writes_toString (n : Int64) : Writes (toString n.toInt) n :=
  ⟨.ofInt n.toInt, rfl, IntegerText.text_ofInt _, IntegerText.value_ofInt _⟩

theorem Writes.ofText? (h : Writes l x) : Number.ofText? l = some (.int x) := by
  obtain ⟨t, ten, rfl, written⟩ := h
  have fits : Fits t.value := written ▸ fits_toInt x
  rw [IntegerText.ofText?_of_fits fits fun least => least.1 ten, written, Int64.ofInt_toInt]

/-- The answer is the exact integer wherever 64 bits hold it, and elsewhere a floating-point
number. -/
def Answers (result : Except Fault.Cause String) (exact : Int) (float : Float) : Prop :=
  (Fits exact → result = .ok (toString exact)) ∧
    (¬ Fits exact → result = .ok (Number.float float).text)

theorem answers_exactOr (exact : Int) (float : Float) :
    Answers (.ok (exactOr exact float).text) exact float := by
  constructor
  · intro fits
    rw [exactOr, if_pos fits, text, toInt_ofInt fits]
  · intro past
    rw [exactOr, if_neg past]

section Integers

variable (left : Writes l x) (right : Writes r y)

include left right in
theorem arithmetic_of_writes (op : Operator) :
    arithmetic op l r = (integerOp op x y).map Number.text := by
  simp only [arithmetic, numbers?, left.ofText?, right.ofText?, apply]

include left right in
theorem div_of_writes (nonzero : y.toInt ≠ 0) :
    let float := Float.ofInt x.toInt / Float.ofInt y.toInt
    (∀ q, x.toInt = q * y.toInt → Answers (arithmetic .div l r) q float) ∧
      (¬ y.toInt ∣ x.toInt → arithmetic .div l r = .ok (Number.float float).text) := by
  intro float
  rw [arithmetic_of_writes left right]
  simp only [integerOp, if_neg nonzero]
  constructor
  · intro q multiple
    have even : x.toInt.tmod y.toInt = 0 := by rw [multiple, Int.mul_tmod_left]
    have quotient : x.toInt.tdiv y.toInt = q := by rw [multiple, Int.mul_tdiv_cancel _ nonzero]
    rw [if_pos even, quotient]
    exact answers_exactOr q float
  · intro indivisible
    rw [if_neg (mt Int.dvd_of_tmod_eq_zero indivisible)]
    rfl

include left right in
theorem mod_of_writes (nonzero : y.toInt ≠ 0) :
    ∃ q m, x.toInt = q * y.toInt + m ∧ |m| < |y.toInt| ∧ (0 ≤ x.toInt → 0 ≤ m) ∧
      (x.toInt ≤ 0 → m ≤ 0) ∧ arithmetic .mod l r = .ok (toString m) := by
  refine ⟨x.toInt.tdiv y.toInt, x.toInt.tmod y.toInt, ?_, ?_, ?_, ?_, ?_⟩
  · exact (Int.tdiv_mul_add_tmod _ _).symm
  · rw [Int.abs_eq_natAbs, Int.abs_eq_natAbs, Int.natAbs_tmod, Int.ofNat_lt]
    exact Nat.mod_lt _ (Int.natAbs_pos.mpr nonzero)
  · exact Int.tmod_nonneg _
  · intro nonpos
    have opposite := Int.tmod_nonneg y.toInt (Int.neg_nonneg_of_nonpos nonpos)
    rw [Int.neg_tmod] at opposite
    exact Int.neg_nonneg.mp opposite
  · rw [arithmetic_of_writes left right]
    simp only [integerOp, if_neg nonzero, Except.map, text, toInt_ofInt (fits_tmod nonzero)]

include left right in
theorem error_of_writes {op : Operator} (divides : op = .div ∨ op = .mod) (c : Fault.Cause) :
    arithmetic op l r = .error c ↔ y.toInt = 0 ∧ c = .divideByZero := by
  rw [arithmetic_of_writes left right]
  by_cases zero : y.toInt = 0
  · rcases divides with rfl | rfl <;> simp [integerOp, zero, Except.map, eq_comm]
  · rcases divides with rfl | rfl
    · simp only [integerOp, if_neg zero]
      split <;> simp [Except.map, zero]
    · simp [integerOp, Except.map, zero]

end Integers

structure IntegerArithmetic (l r : String) (a b : Int) : Prop where
  plus : Answers (arithmetic .plus l r) (a + b) (Float.ofInt a + Float.ofInt b)
  minus : Answers (arithmetic .minus l r) (a - b) (Float.ofInt a - Float.ofInt b)
  mul : Answers (arithmetic .mul l r) (a * b) (Float.ofInt a * Float.ofInt b)
  quotient : b ≠ 0 → ∀ q, a = q * b →
    Answers (arithmetic .div l r) q (Float.ofInt a / Float.ofInt b)
  fraction : b ≠ 0 → ¬ b ∣ a →
    arithmetic .div l r = .ok (Number.float (Float.ofInt a / Float.ofInt b)).text
  remainder : b ≠ 0 → ∃ q m, a = q * b + m ∧ |m| < |b| ∧ (0 ≤ a → 0 ≤ m) ∧ (a ≤ 0 → m ≤ 0) ∧
    arithmetic .mod l r = .ok (toString m)
  shiftLeft : arithmetic .shiftLeft l r =
    .ok (toString ((a * 2 ^ (b % 64).toNat).bmod (2 ^ 64)))
  shiftRight : arithmetic .shiftRight l r = .ok (toString ⌊(a : ℚ) / 2 ^ (b % 64).toNat⌋)
  fails : ∀ op ∈ [Operator.div, .mod], ((∃ c, arithmetic op l r = .error c) ↔ b = 0) ∧
    ∀ c, arithmetic op l r = .error c → c.kind = .range
  increment : Answers (bump .increment l) (a + 1) (Float.ofInt a + Float.ofInt 1)
  decrement : Answers (bump .decrement l) (a - 1) (Float.ofInt a - Float.ofInt 1)
  negate : Answers (negate l) (0 - a) (Float.ofInt 0 - Float.ofInt a)

/-- Arithmetic on integers is exact, whichever way they are written in decimal. Where 64 bits do not
hold an exact result the operators change over to floating point, and never wrap it around; only
shifts wrap. -/
theorem integerArithmetic_of_writes (left : Writes l x) (right : Writes r y) :
    IntegerArithmetic l r x.toInt y.toInt where
  plus := by
    rw [arithmetic_of_writes left right]
    exact answers_exactOr _ _
  minus := by
    rw [arithmetic_of_writes left right]
    exact answers_exactOr _ _
  mul := by
    rw [arithmetic_of_writes left right]
    exact answers_exactOr _ _
  quotient nonzero := (div_of_writes left right nonzero).1
  fraction nonzero := (div_of_writes left right nonzero).2
  remainder := mod_of_writes left right
  shiftLeft := by
    rw [arithmetic_of_writes left right, ← toInt_shiftLeft]
    rfl
  shiftRight := by
    rw [arithmetic_of_writes left right, ← toInt_shiftRight]
    rfl
  fails op divides := by
    have either : op = .div ∨ op = .mod := by simpa using divides
    simp only [error_of_writes left right either]
    refine ⟨by simp, ?_⟩
    rintro _ ⟨-, rfl⟩
    rfl
  increment := by
    rw [bump, left.ofText?]
    exact answers_exactOr _ _
  decrement := by
    rw [bump, left.ofText?]
    exact answers_exactOr _ _
  negate := by
    rw [negate, left.ofText?]
    exact answers_exactOr _ _

/-- The least integer, written with a zero in front. Its remainder by -1 is zero, while its quotient
is past 64 bits; a count of -1 shifts by 63. -/
theorem integerArithmetic_of_writes_least :
    let l := "-09223372036854775808"
    arithmetic .mod l "-1" = .ok "0" ∧ arithmetic .shiftRight l "-1" = .ok "-1" ∧
      arithmetic .div l "-1" =
        .ok (Number.float (Float.ofInt (-0x8000000000000000) / Float.ofInt (-1))).text := by
  intro l
  have left : Writes l (-0x8000000000000000) :=
    ⟨⟨.minus, .ten, "09223372036854775808".toList, by decide, by decide⟩, rfl, by decide, by decide⟩
  have right : Writes "-1" (-1) := writes_toString (-1)
  have arithmetic := integerArithmetic_of_writes left right
  obtain ⟨q, m, -, small, -, -, remainder⟩ := arithmetic.remainder (by decide)
  obtain rfl : m = 0 := Int.abs_lt_one_iff.mp small
  have least : (-0x8000000000000000 : Int64).toInt = -0x8000000000000000 := by decide
  have count : ((-1 : Int64).toInt % 64).toNat = 63 := by decide
  have floor : ⌊((-0x8000000000000000 : Int) : ℚ) / 2 ^ 63⌋ = -1 := by norm_num
  have shifted := arithmetic.shiftRight
  rw [least, count, floor] at shifted
  refine ⟨remainder, shifted, ?_⟩
  exact (arithmetic.quotient (by decide) 0x8000000000000000 (by decide)).2 (by decide)

end Value

end Scriptlet
