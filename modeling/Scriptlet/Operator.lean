/-!
Operators of the script language, in the two families the grammar tells apart.
-/

namespace Scriptlet

inductive Operator where
  | less | lessEq | greater | greaterEq | eq | notEq
  | plus | minus | div | mod | shiftLeft | shiftRight | mul
  | increment | decrement
  deriving DecidableEq, Repr

namespace Operator

def isRelational : Operator → Bool
  | .less | .lessEq | .greater | .greaterEq | .eq | .notEq => true
  | _ => false

def isArithmetic : Operator → Bool
  | .plus | .minus | .div | .mod | .shiftLeft | .shiftRight | .mul => true
  | _ => false

def symbol : Operator → String
  | .less => "<"
  | .lessEq => "<="
  | .greater => ">"
  | .greaterEq => ">="
  | .eq => "=="
  | .notEq => "!="
  | .plus => "+"
  | .minus => "-"
  | .div => "/"
  | .mod => "%"
  | .shiftLeft => "<<"
  | .shiftRight => ">>"
  | .mul => "*"
  | .increment => "++"
  | .decrement => "--"

def name : Operator → String
  | .less => "Less"
  | .lessEq => "LessEq"
  | .greater => "Greater"
  | .greaterEq => "GreaterEq"
  | .eq => "Eq"
  | .notEq => "NotEq"
  | .plus => "Plus"
  | .minus => "Minus"
  | .div => "Div"
  | .mod => "Mod"
  | .shiftLeft => "LShift"
  | .shiftRight => "RShift"
  | .mul => "Mul"
  | .increment => "Inc"
  | .decrement => "Dec"

def all : List Operator :=
  [.less, .lessEq, .greater, .greaterEq, .eq, .notEq, .plus, .minus, .div, .mod, .shiftLeft,
    .shiftRight, .mul, .increment, .decrement]

def ofName? (s : String) : Option Operator := all.find? (·.name = s)

end Operator

inductive Logical where
  | and | or | not
  deriving DecidableEq, Repr

namespace Logical

def symbol : Logical → String
  | .and => "&&"
  | .or => "||"
  | .not => "!"

def name : Logical → String
  | .and => "And"
  | .or => "Or"
  | .not => "Not"

def all : List Logical := [.and, .or, .not]

def ofName? (s : String) : Option Logical := all.find? (·.name = s)

end Logical

end Scriptlet
