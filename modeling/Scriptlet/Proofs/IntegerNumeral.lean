import Mathlib.Data.List.TakeWhile
import Mathlib.Data.Nat.Digits.Defs
import Scriptlet.Proofs.Numeric

/-!
Numerals that write integers. Without a point and an exponent a numeral is a sign or none and the
digits of one base, and what it writes is the sum of its digits, each weighted by a power of the
base. It is read as that integer wherever 64 bits hold it, except that a hexadecimal numeral is
tried without its sign, which leaves the least integer out. Printing writes an integer in decimal,
so every integer is read back from its own text.
-/

namespace Scriptlet

open Digits

namespace Number

theorem fits_toInt (n : Int64) : Fits n.toInt := ⟨n.le_toInt, n.toInt_lt⟩

theorem toInt_ofInt {n : Int} (fits : Fits n) : (Int64.ofInt n).toInt = n :=
  Int64.toInt_ofInt_of_le fits.1 fits.2

end Number

/-! ### Integers as they are written -/

namespace IntegerText

inductive Sign where
  | absent
  | plus
  | minus
  deriving DecidableEq, Repr

namespace Sign

def text : Sign → List Char
  | absent => []
  | plus => ['+']
  | minus => ['-']

def isMinus : Sign → Bool
  | minus => true
  | _ => false

def apply (s : Sign) (n : Nat) : Int := if s.isMinus then -n else n

end Sign

inductive Radix where
  | ten
  | sixteen (large : Bool)
  deriving DecidableEq, Repr

namespace Radix

def mark : Radix → List Char
  | ten => []
  | sixteen large => ['0', if large then 'X' else 'x']

def base : Radix → Nat
  | ten => 10
  | sixteen _ => 16

def isDigit : Radix → Char → Bool
  | ten => Char.isDigit
  | sixteen _ => isHexDigit

theorem base_pos (r : Radix) : 0 < r.base := by cases r <;> exact Nat.succ_pos _

end Radix

end IntegerText

open IntegerText in
/-- An integer as it is written: a sign or none, and digits, as many zeros in front as one likes. -/
structure IntegerText where
  sign : Sign
  radix : Radix
  digits : List Char
  nonempty : digits ≠ []
  valid : digits.all radix.isDigit = true

namespace IntegerText

variable {t : IntegerText}

def text (t : IntegerText) : String := String.ofList (t.sign.text ++ (t.radix.mark ++ t.digits))

def magnitude (t : IntegerText) : Nat :=
  Nat.ofDigits t.radix.base (t.digits.reverse.map digitValue)

def value (t : IntegerText) : Int := t.sign.apply t.magnitude

/-- Reading digits from the left gives every digit the weight of its place. -/
theorem toNat_eq_ofDigits (base : Nat) (digits : List Char) :
    Digits.toNat base digits = Nat.ofDigits base (digits.reverse.map digitValue) := by
  rw [Nat.ofDigits_eq_foldr, List.foldr_map, List.foldr_reverse, Digits.toNat]
  congr 1
  funext n c
  rw [push, Nat.mul_comm, Nat.add_comm]
  rfl

/-! ### Reading -/

def numeral (t : IntegerText) : Numeral :=
  match t.radix with
  | .ten => .decimal t.sign.isMinus t.digits none none
  | .sixteen _ => .hex t.sign.isMinus t.digits

theorem splitSign_text (s : Sign) {cs : List Char} (unsigned : Numeral.Unsigned cs) :
    Numeral.splitSign (s.text ++ cs) = (s.isMinus, cs) := by
  cases s with
  | absent => exact unsigned.split
  | plus => rfl
  | minus => rfl

theorem readDecimal_digits {digits : List Char} (nonempty : digits ≠ [])
    (valid : digits.all Char.isDigit = true) (negative : Bool) :
    Numeral.readDecimal negative digits = some (.decimal negative digits none none) := by
  have whole : digits.takeWhile Char.isDigit = digits :=
    List.takeWhile_eq_self_iff.mpr (List.all_eq_true.mp valid)
  have rest : digits.dropWhile Char.isDigit = [] :=
    List.dropWhile_eq_nil_iff.mpr (List.all_eq_true.mp valid)
  simp only [Numeral.readDecimal, whole, rest, if_neg nonempty]
  rfl

theorem read_text (t : IntegerText) : Numeral.read t.text = some t.numeral := by
  obtain ⟨sign, radix, digits, nonempty, valid⟩ := t
  have unsigned : Numeral.Unsigned (radix.mark ++ digits) := by
    cases radix with
    | ten =>
      have plain := Numeral.digits_unsigned nonempty valid []
      rwa [List.append_nil] at plain
    | sixteen large =>
      rintro c ⟨⟩
      exact Numeral.digit_unsigned rfl
  simp only [Numeral.read, text, String.toList_ofList, splitSign_text sign unsigned]
  cases radix with
  | ten =>
    have decimal := readDecimal_digits nonempty valid sign.isMinus
    have isSome : (Numeral.readDecimal sign.isMinus digits).isSome = true := by rw [decimal]; rfl
    exact (Numeral.readUnsigned_eq_readDecimal isSome).trans decimal
  | sixteen large =>
    cases large <;> exact if_pos ⟨nonempty, valid⟩

theorem ofText?_text (t : IntegerText) : Number.ofText? t.text = some t.numeral.value := by
  rw [Number.ofText?, read_text, Option.map_some]

/-! ### The number that is read -/

def IsLeastHex (t : IntegerText) : Prop := t.radix ≠ .ten ∧ t.value = -0x8000000000000000

instance (t : IntegerText) : Decidable t.IsLeastHex := inferInstanceAs (Decidable (_ ∧ _))

theorem upTo_magnitude (t : IntegerText) :
    toNatUpTo Numeral.integerLimit t.radix.base t.digits = t.magnitude ∨
      Numeral.integerLimit ≤ toNatUpTo Numeral.integerLimit t.radix.base t.digits ∧
        Numeral.integerLimit ≤ t.magnitude := by
  rw [magnitude, ← toNat_eq_ofDigits]
  by_cases small : Digits.toNat t.radix.base t.digits < Numeral.integerLimit
  · exact .inl (toNatUpTo_of_lt t.radix.base_pos small)
  · exact .inr ⟨Nat.not_lt.mp (mt (toNatUpTo_lt_iff t.radix.base_pos).mp small),
      Nat.not_lt.mp small⟩

/-- What is read up to the limit decides, with either sign, whether 64 bits hold the integer. -/
theorem apply_upTo (t : IntegerText) :
    let n := toNatUpTo Numeral.integerLimit t.radix.base t.digits
    (Number.Fits (t.sign.apply n) ↔ Number.Fits t.value) ∧
      (Number.Fits t.value → t.sign.apply n = t.value) := by
  intro n
  rcases t.upTo_magnitude with same | ⟨read, written⟩
  · rw [value, ← same]
    exact ⟨Iff.rfl, fun _ => rfl⟩
  · have past : ∀ m : Nat, Numeral.integerLimit ≤ m → ¬ Number.Fits (t.sign.apply m) := by
      intro m large fits
      simp only [Number.Fits, Sign.apply, Numeral.integerLimit] at fits large
      split at fits <;> omega
    have neither := past _ written
    exact ⟨iff_of_false (past _ read) neither, fun fits => absurd fits neither⟩

theorem value_decimal (sign : Sign) {digits : List Char} (nonempty : digits ≠ [])
    (valid : digits.all Radix.ten.isDigit = true) :
    let t : IntegerText := ⟨sign, .ten, digits, nonempty, valid⟩
    ∃ x, t.numeral.value =
      if Number.Fits t.value then .int (Int64.ofInt t.value) else .float x := by
  intro t
  obtain ⟨same, read⟩ := t.apply_upTo
  refine ⟨Numeral.signed sign.isMinus (Numeral.nearest digits 0), ?_⟩
  by_cases fits : Number.Fits t.value
  · rw [if_pos fits, ← read fits]
    exact if_pos (same.mpr fits)
  · rw [if_neg fits]
    exact if_neg (mt same.mp fits)

/-- A hexadecimal numeral is read as an integer if its magnitude is one. -/
theorem value_hexadecimal (sign : Sign) {large : Bool} {digits : List Char}
    (nonempty : digits ≠ []) (valid : digits.all (Radix.sixteen large).isDigit = true) :
    let t : IntegerText := ⟨sign, .sixteen large, digits, nonempty, valid⟩
    ∃ x, t.numeral.value =
      if Number.Fits t.magnitude then .int (Int64.ofInt t.value) else .float x := by
  intro t
  refine ⟨Numeral.signed sign.isMinus (Numeral.hexFloat digits), ?_⟩
  have taken := t.upTo_magnitude
  simp only [numeral, Numeral.value, value, t, Radix.base] at taken ⊢
  generalize toNatUpTo Numeral.integerLimit 16 digits = n at taken ⊢
  rcases taken with rfl | ⟨read, written⟩
  · rfl
  · have past : ∀ m : Nat, Numeral.integerLimit ≤ m → ¬ Number.Fits m := by
      intro m large fits
      simp only [Number.Fits, Numeral.integerLimit] at fits large
      omega
    rw [if_neg (past _ read), if_neg (past _ written)]

/-- The magnitude of a hexadecimal integer fits wherever the integer does, but for the least. -/
theorem fits_magnitude (hex : t.radix ≠ .ten) :
    Number.Fits t.magnitude ↔ Number.Fits t.value ∧ ¬ t.IsLeastHex := by
  simp only [IsLeastHex, hex, ne_eq, not_false_eq_true, true_and, Number.Fits, value, Sign.apply]
  split <;> omega

theorem value_numeral (t : IntegerText) : ∃ x, t.numeral.value =
    if Number.Fits t.value ∧ ¬ t.IsLeastHex then .int (Int64.ofInt t.value) else .float x := by
  obtain ⟨sign, radix, digits, nonempty, valid⟩ := t
  cases radix with
  | ten =>
    obtain ⟨x, read⟩ := value_decimal sign nonempty valid
    refine ⟨x, read.trans ?_⟩
    simp [IsLeastHex]
  | sixteen large =>
    obtain ⟨x, read⟩ := value_hexadecimal sign nonempty valid
    refine ⟨x, read.trans ?_⟩
    simp only [fits_magnitude (t := ⟨sign, .sixteen large, digits, nonempty, valid⟩) nofun]

theorem ofText?_of_fits (fits : Number.Fits t.value) (other : ¬ t.IsLeastHex) :
    Number.ofText? t.text = some (.int (Int64.ofInt t.value)) := by
  obtain ⟨x, read⟩ := t.value_numeral
  rw [ofText?_text, read, if_pos ⟨fits, other⟩]

theorem ofText?_of_not (past : ¬ Number.Fits t.value ∨ t.IsLeastHex) :
    ∃ x, Number.ofText? t.text = some (.float x) := by
  obtain ⟨x, read⟩ := t.value_numeral
  refine ⟨x, ?_⟩
  rw [ofText?_text, read, if_neg (by tauto)]

/-! ### Printing -/

def ofInt (n : Int) : IntegerText where
  sign := if n < 0 then .minus else .absent
  radix := .ten
  digits := Nat.toDigits 10 n.natAbs
  nonempty := Nat.toDigits_ne_nil
  valid := List.all_eq_true.mpr fun _ => Nat.isDigit_of_mem_toDigits (by decide) (by decide)

theorem text_ofInt (n : Int) : (ofInt n).text = toString n := by
  apply String.toList_inj.mp
  cases n with
  | ofNat n =>
    have whole : ¬ (Int.ofNat n < 0) := by simp
    simp only [text, ofInt, if_neg whole, String.toList_ofList]
    exact Nat.toList_repr.symm
  | negSucc n =>
    have minus : Int.negSucc n < 0 := Int.negSucc_lt_zero n
    have printed : toString (Int.negSucc n) = "-" ++ Nat.repr (n + 1) := rfl
    rw [printed, String.toList_append, Nat.toList_repr]
    simp only [text, ofInt, if_pos minus, String.toList_ofList]
    rfl

theorem magnitude_ofInt (n : Int) : (ofInt n).magnitude = n.natAbs := by
  have decimal : ∀ (digits : List Char), digits.all Char.isDigit = true →
      Digits.toNat 10 digits = Nat.ofDigitChars 10 digits 0 := by
    intro digits valid
    refine List.foldl_ext _ _ _ fun n c inside => ?_
    rw [push, digitValue, if_pos (List.all_eq_true.mp valid c inside), Nat.mul_comm]
  rw [magnitude, ← toNat_eq_ofDigits]
  exact (decimal _ (ofInt n).valid).trans Nat.ofDigitChars_ten_toDigits

theorem value_ofInt (n : Int) : (ofInt n).value = n := by
  rw [value, magnitude_ofInt]
  by_cases minus : n < 0
  · simp only [ofInt, if_pos minus, Sign.apply, Sign.isMinus, if_true]
    omega
  · simp only [ofInt, if_neg minus, Sign.apply, Sign.isMinus, Bool.false_eq_true, if_false]
    omega

/-- Every integer that 64 bits hold is read back from its own text. -/
theorem ofText?_toString (n : Int64) : Number.ofText? (toString n.toInt) = some (.int n) := by
  have fits : Number.Fits (ofInt n.toInt).value := by
    rw [value_ofInt]
    exact Number.fits_toInt n
  rw [← text_ofInt, ofText?_of_fits fits fun least => least.1 rfl, value_ofInt, Int64.ofInt_toInt]

end IntegerText

/-- A text that writes an integer is read as that integer exactly where 64 bits hold it, with the
least integer in hexadecimal left out, and as a floating-point number everywhere else. -/
theorem Number.ofText?_integer (t : IntegerText) :
    (∀ n : Int64, ofText? t.text = some (.int n) ↔ n.toInt = t.value ∧ ¬ t.IsLeastHex) ∧
      ((∃ x, ofText? t.text = some (.float x)) ↔ ¬ Fits t.value ∨ t.IsLeastHex) := by
  by_cases within : Fits t.value ∧ ¬ t.IsLeastHex
  · have read := IntegerText.ofText?_of_fits within.1 within.2
    constructor
    · intro n
      rw [read, Option.some.injEq, Number.int.injEq, ← Int64.toInt_inj,
        toInt_ofInt within.1]
      exact ⟨fun same => ⟨same.symm, within.2⟩, fun same => same.1.symm⟩
    · refine iff_of_false ?_ (by tauto)
      rintro ⟨x, float⟩
      cases read.symm.trans float
  · have past : ¬ Fits t.value ∨ t.IsLeastHex := by tauto
    obtain ⟨x, read⟩ := IntegerText.ofText?_of_not past
    refine ⟨fun n => iff_of_false (fun int => ?_) ?_, iff_of_true ⟨x, read⟩ past⟩
    · cases read.symm.trans int
    · rintro ⟨same, other⟩
      exact past.elim (fun outside => outside (same ▸ fits_toInt n)) other

/-- The least integer fits in 64 bits, and its decimal writing is read as it is, but not its
hexadecimal one. -/
theorem Number.ofText?_least_hex :
    let t : IntegerText :=
      ⟨.minus, .sixteen false, "8000000000000000".toList, by decide, by decide⟩
    t.text = "-0x8000000000000000" ∧ Fits t.value ∧
      ofText? (toString t.value) = some (.int (Int64.ofInt t.value)) ∧
      ¬ ∃ n, ofText? t.text = some (.int n) := by
  intro t
  have least : t.value = -0x8000000000000000 := by decide
  have fits : Fits t.value := by
    rw [least]
    decide
  refine ⟨by decide, fits, ?_, ?_⟩
  · have back := IntegerText.ofText?_toString (Int64.ofInt t.value)
    rwa [toInt_ofInt fits] at back
  · rintro ⟨n, int⟩
    obtain ⟨x, float⟩ := IntegerText.ofText?_of_not (t := t) (.inr ⟨nofun, least⟩)
    cases float.symm.trans int

end Scriptlet
