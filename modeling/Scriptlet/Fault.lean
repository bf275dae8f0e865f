import Scriptlet.Token
import Scriptlet.Phase
import Scriptlet.Handle
import Scriptlet.Argument.Kind

/-!
What can go wrong. A fault is a cause together with the script line it arose on, 0 when it is not
tied to script text. Each cause belongs to one kind and has one wording.
-/

namespace Scriptlet

namespace Fault

inductive Kind where
  | lexical
  | grammar
  | reference
  | type
  | range
  | handle
  | io
  deriving DecidableEq, Repr

def Kind.label : Kind → String
  | .lexical => "Lexical error"
  | .grammar => "Syntax error"
  | .reference => "Reference error"
  | .type => "Type error"
  | .range => "Range error"
  | .handle => "Handle error"
  | .io => "I/O error"

def Kind.name : Kind → String
  | .lexical => "LexicalError"
  | .grammar => "SyntaxError"
  | .reference => "ReferenceError"
  | .type => "TypeError"
  | .range => "RangeError"
  | .handle => "HandleError"
  | .io => "IoError"

def Kind.all : List Kind := [.lexical, .grammar, .reference, .type, .range, .handle, .io]

def Kind.ofName? (s : String) : Option Kind := Kind.all.find? (·.name = s)

inductive Clause where
  | ifClause
  | elseClause
  | forClause
  deriving DecidableEq, Repr

def Clause.keyword : Clause → String
  | .ifClause => "if"
  | .elseClause => "else"
  | .forClause => "for"

inductive Cause where
  /-- A malformed token; the text is the message of the error token. -/
  | malformed (message : String)
  | unexpected (found : Token)
  | expected (kind : Token.Kind) (found : Token)
  | expectedName (found : Token)
  | expectedArgumentEnd (found : Token)
  | unclosedBlock
  | missingBody (clause : Clause)
  | cannotStart (phase : Phase)
  | unexpectedPhase (phase : Phase)
  | recursionLimit
  | undefinedVariable (name : String)
  | undefinedFunction (name : String)
  | divideByZero
  | notArithmetic (op : Operator)
  | notRelational (op : Operator)
  | unaryNot
  | integerOperands (op : Operator)
  | numericOperands (op : Operator) (left right : String)
  | numericOperand (op : Operator) (value : String)
  | argumentFormat (format : String)
  | tooFewArguments (least given : Nat)
  | argumentCount (wanted given : Nat)
  /-- The argument at a position, counted from 1, has the wrong form. -/
  | argumentForm (position : Nat) (kind : Argument.Kind) (given : String)
  | noArgument (position : Nat)
  | argumentReading (position : Nat) (kind : Argument.Kind)
  | noSession (id : Handle)
  | blockNotInnermost (id : BlockId)
  | blockNotOpen (id : BlockId)
  | unreadable (path reason : String)
  /-- A failure the host words itself. -/
  | reported (kind : Kind) (message : String)
  deriving DecidableEq, Repr

namespace Cause

def kind : Cause → Kind
  | .malformed _ => .lexical
  | .unexpected _ | .expected _ _ | .expectedName _ | .expectedArgumentEnd _ | .unclosedBlock
  | .missingBody _ | .cannotStart _ | .unexpectedPhase _ | .notArithmetic _ | .notRelational _
  | .unaryNot => .grammar
  | .undefinedVariable _ | .undefinedFunction _ => .reference
  | .integerOperands _ | .numericOperands _ _ _ | .numericOperand _ _ | .argumentFormat _
  | .tooFewArguments _ _ | .argumentCount _ _ | .argumentForm _ _ _ | .noArgument _
  | .argumentReading _ _ => .type
  | .recursionLimit | .divideByZero => .range
  | .noSession _ | .blockNotInnermost _ | .blockNotOpen _ => .handle
  | .unreadable _ _ => .io
  | .reported kind _ => kind

def message : Cause → String
  | .malformed message => message
  | .unexpected found => "Unexpected " ++ found.describe
  | .expected kind found => "Expected '" ++ kind.spelling ++ "' but found " ++ found.describe
  | .expectedName found => "Expected variable name but found " ++ found.describe
  | .expectedArgumentEnd found =>
    "Expected ',' or ')' in argument list but found " ++ found.describe
  | .unclosedBlock => "Missing '\x7d'"
  | .missingBody clause => "Missing statement after '" ++ clause.keyword ++ "'"
  | .cannotStart phase => "Cannot start parsing in state " ++ phase.name
  | .unexpectedPhase phase => "Unexpected parser state " ++ phase.name
  | .recursionLimit => "Recursion limit exceeded"
  | .undefinedVariable name => "Undefined variable '" ++ name ++ "'"
  | .undefinedFunction name => "Function '" ++ name ++ "' is not defined"
  | .divideByZero => "Divide by zero"
  | .notArithmetic op => "'" ++ op.symbol ++ "' is not an arithmetic operator"
  | .notRelational op => "'" ++ op.symbol ++ "' is not a relational operator"
  | .unaryNot => "'!' is a unary operator"
  | .integerOperands op => "Operator '" ++ op.symbol ++ "' requires integer operands"
  | .numericOperands op left right =>
    "Operator '" ++ op.symbol ++ "' requires numeric operands, got \"" ++ left ++ "\" and \"" ++
      right ++ "\""
  | .numericOperand op value =>
    "Operator '" ++ op.symbol ++ "' requires a numeric operand, got \"" ++ value ++ "\""
  | .argumentFormat format => "Invalid argument format \"" ++ format ++ "\""
  | .tooFewArguments least given =>
    "Expected at least " ++ toString least ++ " arguments but got " ++ toString given
  | .argumentCount wanted given =>
    "Expected " ++ toString wanted ++ " arguments but got " ++ toString given
  | .argumentForm position kind given =>
    "Argument " ++ toString position ++ " should be " ++ kind.text ++ ", got \"" ++ given ++ "\""
  | .noArgument position => "No argument at position " ++ toString position
  | .argumentReading position kind =>
    "Argument " ++ toString position ++ " cannot be read as " ++ kind.text
  | .noSession id => "No open session for engine " ++ id.text
  | .blockNotInnermost id => "Block " ++ id.text ++ " is not the innermost open block"
  | .blockNotOpen id => "Block " ++ id.text ++ " is not open"
  | .unreadable path reason => "Cannot read " ++ path ++ ": " ++ reason
  | .reported _ message => message

def text (c : Cause) : String := c.kind.label ++ ": " ++ c.message

end Cause

end Fault

structure Fault where
  cause : Fault.Cause
  line : Nat := 0
  deriving DecidableEq, Repr

namespace Fault

def orLine (f : Fault) (line : Nat) : Fault := if f.line = 0 then { f with line } else f

def text (f : Fault) : String :=
  if f.line = 0 then f.cause.text else f.cause.text ++ " (line " ++ toString f.line ++ ")"

end Fault

end Scriptlet
