import Scriptlet.Number.Numeral
import Scriptlet.Fault

/-!
Argument formats of native functions. A format lists the kinds of the arguments, `%s`, `%d`, `%f`
and `%b`, with blanks or commas between them where one likes; `%*` at the end takes any number of
further arguments as they are.
-/

namespace Scriptlet.Argument

structure Format where
  kinds : List Kind
  takesRest : Bool
  deriving DecidableEq, Repr

inductive Value where
  | string (s : String)
  | integer (n : Int64)
  | float (x : Float)
  | boolean (b : Bool)
  deriving DecidableEq, Repr

structure Values where
  items : List Value
  rest : List String
  deriving DecidableEq, Repr

def isSeparator (c : Char) : Bool := c = ' ' || c = '\t' || c = ','

def kindOf? : Char → Option Kind
  | 's' => some .string
  | 'd' => some .integer
  | 'f' => some .float
  | 'b' => some .boolean
  | _ => none

namespace Format

/-- Read a format's characters. After `%*` only separators may follow. -/
def readChars : List Char → Option Format
  | [] => some ⟨[], false⟩
  | '%' :: '*' :: cs => if cs.all isSeparator then some ⟨[], true⟩ else none
  | '%' :: c :: cs =>
    match kindOf? c with
    | some kind => (readChars cs).map fun f => { f with kinds := kind :: f.kinds }
    | none => none
  | c :: cs => if isSeparator c then readChars cs else none

def read (format : String) : Except Fault.Cause Format :=
  match readChars format.toList with
  | some f => .ok f
  | none => .error (.argumentFormat format)

end Format

def convert : Kind → String → Option Value
  | .string, s => some (.string s)
  | .integer, s => ((Number.ofText? s).bind Number.toInteger?).map .integer
  | .float, s => (Number.ofText? s).map fun n => .float n.toFloat
  | .boolean, s => some (.boolean !(s == "" || s == "0" || s == "false"))

/-- Convert arguments from a position on, which is counted from 1 in the fault. -/
def convertFrom (position : Nat) : List Kind → List String → Except Fault.Cause (List Value)
  | kind :: kinds, arg :: args =>
    match convert kind arg with
    | some v => (convertFrom (position + 1) kinds args).map (v :: ·)
    | none => .error (.argumentForm position kind arg)
  | _, _ => .ok []

/-- Match arguments against a format. A wrong count is reported before any wrong form. -/
def Format.extract (f : Format) (args : List String) : Except Fault.Cause Values :=
  let wanted := f.kinds.length
  if f.takesRest ∧ args.length < wanted then .error (.tooFewArguments wanted args.length)
  else if ¬f.takesRest ∧ args.length ≠ wanted then .error (.argumentCount wanted args.length)
  else (convertFrom 1 f.kinds args).map fun items => ⟨items, args.drop wanted⟩

def extract (format : String) (args : List String) : Except Fault.Cause Values := do
  (← Format.read format).extract args

namespace Values

def get? (v : Values) (index : Nat) : Option Value := v.items[index]?

def take {α : Type} (v : Values) (index : Nat) (kind : Kind) (f : Value → Option α) :
    Except Fault.Cause α :=
  match v.get? index with
  | none => .error (.noArgument (index + 1))
  | some item =>
    match f item with
    | some a => .ok a
    | none => .error (.argumentReading (index + 1) kind)

def takeString (v : Values) (index : Nat) : Except Fault.Cause String :=
  v.take index .string fun
    | .string s => some s
    | _ => none

def takeInteger (v : Values) (index : Nat) : Except Fault.Cause Int64 :=
  v.take index .integer fun
    | .integer n => some n
    | _ => none

def takeFloat (v : Values) (index : Nat) : Except Fault.Cause Float :=
  v.take index .float fun
    | .float x => some x
    | .integer n => some (Float.ofInt n.toInt)
    | _ => none

def takeBoolean (v : Values) (index : Nat) : Except Fault.Cause Bool :=
  v.take index .boolean fun
    | .boolean b => some b
    | _ => none

end Values

end Scriptlet.Argument
