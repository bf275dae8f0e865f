import Scriptlet.Decimal.Dyadic

/-!
The shortest decimal of a floating-point number: the fewest digits that read back as the same
number. Every number owns an interval of reals that round to it. The coarsest power-of-ten grid
with a point in that interval gives the digits; of two such points the nearer one is taken, and
the upper one when both are equally near.
-/

namespace Scriptlet.Decimal

structure Scientific where
  digits : Nat
  exponent : Int
  deriving DecidableEq, Repr

/-- The point on the grid of multiples of `10 ^ p` that stands for the value, if the value's
interval holds one.

Everything is counted in quarters of the mantissa's unit, scaled to integers: the value is
`value`, a grid step is `unit`, and the interval reaches half a mantissa unit to either side, only
a quarter downwards where the numbers below lie twice as dense. Its ends belong to it when the
mantissa is even. -/
def gridPoint (d : Dyadic) (p : Int) : Option Nat :=
  let quarter := d.exponent - 2
  let scale := Nat.pow 2 quarter.toNat * Nat.pow 10 (-p).toNat
  let unit := Nat.pow 10 p.toNat * Nat.pow 2 (-quarter).toNat
  let value := 4 * d.mantissa * scale
  let below := (if d.mantissa = 0x10000000000000 ∧ -1074 < d.exponent then 1 else 2) * scale
  let above := 2 * scale
  let inside := fun gap reach => gap < reach ∨ (gap = reach ∧ d.mantissa % 2 = 0)
  let k := value / unit
  let rest := value % unit
  if inside rest below then
    if inside (unit - rest) above ∧ unit ≤ 2 * rest then some (k + 1) else some k
  else if inside (unit - rest) above then some (k + 1)
  else none

def refine (d : Dyadic) : Nat → Int → Scientific
  | 0, p => ⟨0, p⟩
  | fuel + 1, p =>
    match gridPoint d p with
    | some digits => ⟨digits, p⟩
    | none => refine d fuel (p - 1)

/-- A power of ten above the value, from `log10 2 < 0.30103`. -/
def ceiling (d : Dyadic) : Int :=
  (d.mantissa.log2 + d.exponent + 1) * 30103 / 100000 + 2

/-- The shortest decimal of the magnitude. Seventeen digits always suffice, so the search ends
long before its bound. -/
def shortest (d : Dyadic) : Scientific :=
  refine d 40 (ceiling d)

def Scientific.text (s : Scientific) : String :=
  let digits := Nat.toDigits 10 s.digits
  match s.exponent with
  | .ofNat zeros => String.ofList (digits ++ List.replicate zeros '0')
  | .negSucc n =>
    let places := n + 1
    let padded := List.replicate (places + 1 - digits.length) '0' ++ digits
    let whole := padded.length - places
    String.ofList (padded.take whole ++ '.' :: padded.drop whole)

end Scriptlet.Decimal
