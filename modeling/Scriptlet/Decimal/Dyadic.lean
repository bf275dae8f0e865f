/-!
Finite floating-point numbers as exact values: a sign, a natural mantissa and a power of two.
Integrality, remainders and decimal texts are decided on this form, in exact arithmetic.
-/

namespace Scriptlet.Decimal

/-- The value is `mantissa * 2 ^ exponent`, negated when `negative`. -/
structure Dyadic where
  negative : Bool
  mantissa : Nat
  exponent : Int
  deriving DecidableEq, Repr

inductive Real64 where
  | nan
  | infinite (negative : Bool)
  | finite (value : Dyadic)
  deriving DecidableEq, Repr

/-- The stored exponent 2047 marks the values that are not finite, 0 the subnormal ones, which
have no implicit leading bit. -/
def Real64.ofBits (bits : Nat) : Real64 :=
  let negative : Bool := bits / 0x8000000000000000 % 2 = 1
  let stored : Nat := bits / 0x10000000000000 % 2048
  let fraction : Nat := bits % 0x10000000000000
  if stored = 2047 then
    if fraction = 0 then .infinite negative else .nan
  else if stored = 0 then .finite ⟨negative, fraction, -1074⟩
  else .finite ⟨negative, fraction + 0x10000000000000, (stored : Int) - 1075⟩

def Real64.ofFloat (x : Float) : Real64 := .ofBits x.toBits.toNat

namespace Dyadic

def toInt? (d : Dyadic) : Option Int :=
  let magnitude : Option Nat :=
    match d.exponent with
    | .ofNat q => some (d.mantissa * Nat.pow 2 q)
    | .negSucc q =>
      let unit := Nat.pow 2 (q + 1)
      if d.mantissa % unit = 0 then some (d.mantissa / unit) else none
  magnitude.map fun n => if d.negative then -(n : Int) else n

def mantissaAt (d : Dyadic) (e : Int) : Nat := d.mantissa * Nat.pow 2 (d.exponent - e).toNat

def remainder (x y : Dyadic) : Dyadic :=
  let e := min x.exponent y.exponent
  ⟨x.negative, x.mantissaAt e % y.mantissaAt e, e⟩

/-- The bits of a value with a mantissa below `2 ^ 53` and an exponent of at least -1074 and of
at most 971, which are exactly the finite ones. -/
def toBits (d : Dyadic) : Nat :=
  let sign := if d.negative then 0x8000000000000000 else 0
  if d.mantissa = 0 then sign
  else
    let shift := min (52 - d.mantissa.log2) (d.exponent + 1074).toNat
    let mantissa := d.mantissa * Nat.pow 2 shift
    let exponent := d.exponent - shift
    if mantissa < 0x10000000000000 then sign + mantissa
    else sign + (exponent + 1075).toNat * 0x10000000000000 + (mantissa - 0x10000000000000)

def toFloat (d : Dyadic) : Float := Float.ofBits (UInt64.ofNat d.toBits)

end Dyadic

def remainder (x y : Float) : Float :=
  match Real64.ofFloat x, Real64.ofFloat y with
  | .finite a, .finite b => if b.mantissa = 0 then 0.0 / 0.0 else (a.remainder b).toFloat
  | .finite _, .infinite _ => x
  | _, _ => 0.0 / 0.0

end Scriptlet.Decimal
