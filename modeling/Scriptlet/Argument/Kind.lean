/-!
Kinds of native function arguments.
-/

namespace Scriptlet.Argument

inductive Kind where
  | string
  | integer
  | float
  | boolean
  deriving DecidableEq, Repr

def Kind.text : Kind → String
  | .string => "a string"
  | .integer => "an integer"
  | .float => "a number"
  | .boolean => "a boolean"

end Scriptlet.Argument
