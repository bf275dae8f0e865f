import Scriptlet.Operator

/-!
Tokens: a kind and the text that goes with it. The text of a literal is its decoded value and the
text of an error is its message; every other text is the spelling in the script.
-/

namespace Scriptlet

inductive Token.Kind where
  | error
  | lparen | rparen
  | ifWord | elseWord
  | lbrace | rbrace
  | logical (op : Logical)
  | operator (op : Operator)
  | semicolon
  | literal
  /-- A name in front of an opening parenthesis. -/
  | function
  | newline
  | identifier
  | eof
  | comma
  | varWord
  | assign
  | forWord
  | bump (op : Operator)
  | returnWord
  deriving DecidableEq, Repr

namespace Token.Kind

def spelling : Token.Kind → String
  | .error => "<error>"
  | .lparen => "("
  | .rparen => ")"
  | .ifWord => "if"
  | .elseWord => "else"
  | .lbrace => "\x7b"
  | .rbrace => "\x7d"
  | .logical op => op.symbol
  | .operator op => op.symbol
  | .semicolon => ";"
  | .literal => "literal"
  | .function => "function name"
  | .newline => "newline"
  | .identifier => "identifier"
  | .eof => "end of script"
  | .comma => ","
  | .varWord => "var"
  | .assign => "="
  | .forWord => "for"
  | .bump op => op.symbol
  | .returnWord => "return"

def name : Token.Kind → String
  | .error => "Err"
  | .lparen => "LParen"
  | .rparen => "RParen"
  | .ifWord => "If"
  | .elseWord => "Else"
  | .lbrace => "LBrace"
  | .rbrace => "RBrace"
  | .logical op => "Logical(" ++ op.name ++ ")"
  | .operator op => "Expr(" ++ op.name ++ ")"
  | .semicolon => "Semi"
  | .literal => "Literal"
  | .function => "Function"
  | .newline => "Newline"
  | .identifier => "Id"
  | .eof => "Eof"
  | .comma => "Comma"
  | .varWord => "Var"
  | .assign => "Assignment"
  | .forWord => "For"
  | .bump op => "IncDec(" ++ op.name ++ ")"
  | .returnWord => "Return"

def plain : List Token.Kind :=
  [.error, .lparen, .rparen, .ifWord, .elseWord, .lbrace, .rbrace, .semicolon, .literal, .function,
    .newline, .identifier, .eof, .comma, .varWord, .assign, .forWord, .returnWord]

def all : List Token.Kind :=
  plain ++ Logical.all.map .logical ++ Operator.all.map .operator ++ Operator.all.map .bump

def ofName? (s : String) : Option Token.Kind := all.find? (·.name = s)

end Token.Kind

structure Token where
  kind : Token.Kind
  text : String
  deriving DecidableEq, Repr

namespace Token

def eof : Token := ⟨.eof, ""⟩

def symbol (kind : Token.Kind) : Token := ⟨kind, kind.spelling⟩

def describe (t : Token) : String :=
  match t.kind with
  | .eof => "end of script"
  | .newline => "end of line"
  | .literal => "literal \"" ++ t.text ++ "\""
  | _ => "'" ++ t.text ++ "'"

end Token

end Scriptlet
