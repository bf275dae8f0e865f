import Scriptlet.Decimal.Shortest

/-!
Numbers of the script language: 64-bit signed integers, and floating-point numbers for everything
that is no such integer.
-/

namespace Scriptlet

inductive Number where
  | int (n : Int64)
  | float (x : Float)
  deriving DecidableEq, Repr

namespace Number

def Fits (n : Int) : Prop := -0x8000000000000000 ≤ n ∧ n < 0x8000000000000000

instance (n : Int) : Decidable (Fits n) :=
  inferInstanceAs (Decidable (_ ∧ _))

def toFloat : Number → Float
  | .int n => Float.ofInt n.toInt
  | .float x => x

/-- The integer a number stands for. A floating-point number stands for one only below 9 * 10^15,
where every integer has a floating-point number of its own. -/
def toInteger? : Number → Option Int64
  | .int n => some n
  | .float x =>
    match Decimal.Real64.ofFloat x with
    | .finite d =>
      match d.toInt? with
      | some n => if n.natAbs < 9000000000000000 then some (Int64.ofInt n) else none
      | none => none
    | _ => none

def floatText (x : Float) : String :=
  match Decimal.Real64.ofFloat x with
  | .nan => "NaN"
  | .infinite negative => if negative then "-Infinity" else "Infinity"
  | .finite d =>
    let digits := (if d.negative then "-" else "") ++ (Decimal.shortest d).text
    match d.toInt? with
    | some n => if n.natAbs < 1000000000000000 then toString n else digits
    | none => digits

/-- Numbers read the way scripts write them: integers in decimal, also the small integral
floating-point numbers, and any other number with its shortest digits. -/
def text : Number → String
  | .int n => toString n.toInt
  | .float x => floatText x

end Number

end Scriptlet
