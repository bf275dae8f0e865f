import Scriptlet.Number
import Scriptlet.Fault

/-!
Arithmetic on numbers. Integers stay integers while the exact result fits in 64 bits and give way
to floating point otherwise; shifts wrap.
-/

namespace Scriptlet.Number

def exactOr (n : Int) (x : Float) : Number :=
  if Fits n then .int (Int64.ofInt n) else .float x

def shiftCount (y : Int64) : Int64 := y &&& 63

def integerOp (op : Operator) (x y : Int64) : Except Fault.Cause Number :=
  let a := x.toInt
  let b := y.toInt
  let fx := Float.ofInt a
  let fy := Float.ofInt b
  match op with
  | .plus => .ok (exactOr (a + b) (fx + fy))
  | .minus => .ok (exactOr (a - b) (fx - fy))
  | .mul => .ok (exactOr (a * b) (fx * fy))
  | .div =>
    if b = 0 then .error .divideByZero
    else if a.tmod b = 0 then .ok (exactOr (a.tdiv b) (fx / fy))
    else .ok (.float (fx / fy))
  | .mod => if b = 0 then .error .divideByZero else .ok (.int (Int64.ofInt (a.tmod b)))
  | .shiftLeft => .ok (.int (x <<< shiftCount y))
  | .shiftRight => .ok (.int (x >>> shiftCount y))
  | op => .error (.notArithmetic op)

def floatOp (op : Operator) (x y : Float) : Except Fault.Cause Number :=
  match op with
  | .plus => .ok (.float (x + y))
  | .minus => .ok (.float (x - y))
  | .mul => .ok (.float (x * y))
  | .div => if y == 0.0 then .error .divideByZero else .ok (.float (x / y))
  | .mod => if y == 0.0 then .error .divideByZero else .ok (.float (Decimal.remainder x y))
  | .shiftLeft | .shiftRight => .error (.integerOperands op)
  | op => .error (.notArithmetic op)

def apply (op : Operator) (a b : Number) : Except Fault.Cause Number :=
  match a, b with
  | .int x, .int y => integerOp op x y
  | a, b =>
    match op, a.toInteger?, b.toInteger? with
    | .shiftLeft, some x, some y => integerOp .shiftLeft x y
    | .shiftRight, some x, some y => integerOp .shiftRight x y
    | op, _, _ => floatOp op a.toFloat b.toFloat

/-- The order of two numbers, exact between integers. A number that is not comparable, not even
with itself, has no order. -/
def order (a b : Number) : Option Ordering :=
  match a, b with
  | .int x, .int y => some (compare x.toInt y.toInt)
  | a, b =>
    let x := a.toFloat
    let y := b.toFloat
    if x < y then some .lt else if x == y then some .eq else if y < x then some .gt else none

end Scriptlet.Number
