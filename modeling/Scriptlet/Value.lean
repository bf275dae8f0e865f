import Scriptlet.Number.Numeral
import Scriptlet.Number.Arithmetic

/-!
Script values. Every value is a text; operators treat their operands as numbers only when both are
numerals in their entirety.
-/

namespace Scriptlet.Value

def truthy (v : String) : Bool := !(v == "" || v == "0")

def ofBool (b : Bool) : String := if b then "1" else "0"

def numbers? (l r : String) : Option (Number × Number) :=
  match Number.ofText? l, Number.ofText? r with
  | some a, some b => some (a, b)
  | _, _ => none

/-- Between values that are not both numerals `+` joins the texts and nothing else is defined. -/
def arithmetic (op : Operator) (l r : String) : Except Fault.Cause String :=
  match numbers? l r with
  | some (a, b) => (Number.apply op a b).map Number.text
  | none => if op = .plus then .ok (l ++ r) else .error (.numericOperands op l r)

def logical (op : Logical) (l r : String) : Except Fault.Cause String :=
  match op with
  | .and => .ok (ofBool (truthy l && truthy r))
  | .or => .ok (ofBool (truthy l || truthy r))
  | .not => .error .unaryNot

def not (v : String) : String := ofBool (!truthy v)

def negate (v : String) : Except Fault.Cause String :=
  match Number.ofText? v with
  | some n => (Number.apply .minus (.int 0) n).map Number.text
  | none => .error (.numericOperand .minus v)

def bump (op : Operator) (v : String) : Except Fault.Cause String :=
  let by1 := fun (change : Operator) =>
    match Number.ofText? v with
    | some n => (Number.apply change n (.int 1)).map Number.text
    | none => .error (.numericOperand op v)
  match op with
  | .increment => by1 .plus
  | .decrement => by1 .minus
  | op => .error (.notArithmetic op)

/-- Numerals are ordered as numbers, any other pair of values as text. -/
def order (l r : String) : Option Ordering :=
  match numbers? l r with
  | some (a, b) => a.order b
  | none => some (compare l r)

def relate (op : Operator) (l r : String) : Except Fault.Cause Bool :=
  let o := order l r
  match op with
  | .less => .ok (o == some .lt)
  | .lessEq => .ok (o == some .lt || o == some .eq)
  | .greater => .ok (o == some .gt)
  | .greaterEq => .ok (o == some .gt || o == some .eq)
  | .eq => .ok (o == some .eq)
  | .notEq => .ok (o != some .eq)
  | op => .error (.notRelational op)

end Scriptlet.Value
