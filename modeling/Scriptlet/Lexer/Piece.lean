import Scriptlet.Token
import Scriptlet.Text.Utf8

/-!
Pieces of a script. The octets at the head of a script are blank space, a newline or a token, and
which of them, how far they reach and what they decode to depends on the octets alone. Every
scanner here reports how many octets beyond the first its piece takes.
-/

namespace Scriptlet.Lexer

def isDigit (b : UInt8) : Bool := 48 ≤ b && b ≤ 57

def isHexDigit (b : UInt8) : Bool := isDigit b || (97 ≤ b && b ≤ 102) || (65 ≤ b && b ≤ 70)

def isLetter (b : UInt8) : Bool := (97 ≤ b && b ≤ 122) || (65 ≤ b && b ≤ 90)

def isNameStart (b : UInt8) : Bool := isLetter b || b == 95 || b == 36

def isNameByte (b : UInt8) : Bool := isNameStart b || isDigit b

def isBlank (b : UInt8) : Bool := b == 32 || b == 9 || b == 13 || b == 11 || b == 12

def isCallBlank (b : UInt8) : Bool := b == 32 || b == 9 || b == 13

def hexValue (b : UInt8) : Nat :=
  if isDigit b then b.toNat - 48 else if 97 ≤ b then b.toNat - 87 else b.toNat - 55

inductive Piece where
  | blank (width : Nat)
  | newline
  | token (t : Token) (width : Nat)
  deriving DecidableEq, Repr

def Piece.error (message : String) (width : Nat) : Piece := .token ⟨.error, message⟩ width

def Piece.symbol (kind : Token.Kind) (width : Nat) : Piece := .token (.symbol kind) width

def blockComment : List UInt8 → Option Nat
  | 42 :: 47 :: _ => some 2
  | _ :: bs => (blockComment bs).map (· + 1)
  | [] => none

/-- A slash divides, unless it opens a comment. A line comment leaves its newline alone. -/
def slash (bs : List UInt8) : Piece :=
  match bs with
  | 47 :: _ => .blank (bs.takeWhile (· != 10)).length
  | 42 :: rest =>
    match blockComment rest with
    | some width => .blank (width + 1)
    | none => .error "Unterminated comment" bs.length
  | _ => .symbol (.operator .div) 0

inductive Quoted where
  | plain
  | escape
  | digits (wanted : Nat) (value : Nat)
  deriving DecidableEq, Repr

def scalar? (n : Nat) : Option Char := if n.isValidChar then some (Char.ofNat n) else none

def escaped (b : UInt8) : UInt8 :=
  if b = 110 then 10 else if b = 116 then 9 else if b = 114 then 13 else if b = 98 then 8
  else if b = 102 then 12 else if b = 118 then 11 else if b = 48 then 0 else b

def unterminated : String := "Unterminated string literal"

def badEscape : String := "Invalid escape sequence in string literal"

/-- Read a string literal behind its opening quote. `value` holds the decoded octets in reverse
and `width` counts those read. -/
def string (quote : UInt8) (value : List UInt8) (width : Nat) : Quoted → List UInt8 → Piece
  | .digits _ _, [] => .error badEscape width
  | _, [] => .error unterminated width
  | .plain, b :: bs =>
    if b = 10 then .error unterminated (width + 1)
    else if b = quote then .token ⟨.literal, Utf8.decode value.reverse⟩ (width + 1)
    else if b = 92 then string quote value (width + 1) .escape bs
    else string quote (b :: value) (width + 1) .plain bs
  | .escape, b :: bs =>
    if b = 120 then string quote value (width + 1) (.digits 2 0) bs
    else if b = 117 then string quote value (width + 1) (.digits 4 0) bs
    else string quote (escaped b :: value) (width + 1) .plain bs
  | .digits wanted n, b :: bs =>
    if !isHexDigit b then .error badEscape width
    else
      let n := n * 16 + hexValue b
      if 1 < wanted then string quote value (width + 1) (.digits (wanted - 1) n) bs
      else
        match scalar? n with
        | some c =>
          string quote ((String.utf8EncodeChar c).reverse ++ value) (width + 1) .plain bs
        | none => .error badEscape (width + 1)

def literal (text : List UInt8) (width : Nat) (rest : List UInt8) : Piece :=
  match rest with
  | b :: _ =>
    if isNameByte b || b == 46 then .error "Invalid numeric literal" width
    else .token ⟨.literal, Utf8.decode text⟩ width
  | [] => .token ⟨.literal, Utf8.decode text⟩ width

def exponent (text : List UInt8) (width : Nat) (rest : List UInt8) : Piece :=
  match rest with
  | e :: bs =>
    if e == 101 || e == 69 then
      let mark :=
        match bs with
        | s :: _ => if s == 43 || s == 45 then [e, s] else [e]
        | [] => [e]
      let after := rest.drop mark.length
      let digits := after.takeWhile isDigit
      let width := width + mark.length + digits.length
      if digits = [] then .error "Invalid exponent in numeric literal" width
      else literal (text ++ mark ++ digits) width (after.drop digits.length)
    else literal text width rest
  | [] => literal text width rest

/-- A hexadecimal literal behind its `0x`. The text always has a small x. -/
def hexadecimal (bs : List UInt8) : Piece :=
  let digits := bs.takeWhile isHexDigit
  if digits = [] then .error "Invalid hex literal" 1
  else literal (48 :: 120 :: digits) (1 + digits.length) (bs.drop digits.length)

def decimal (first : UInt8) (bs : List UInt8) : Piece :=
  let whole := if first = 46 then [] else bs.takeWhile isDigit
  let afterWhole := bs.drop whole.length
  let point : List UInt8 := if first ≠ 46 ∧ afterWhole.head? = some 46 then [46] else []
  let afterPoint := afterWhole.drop point.length
  let fraction := afterPoint.takeWhile isDigit
  let taken := whole ++ point ++ fraction
  exponent (first :: taken) taken.length (afterPoint.drop fraction.length)

def number (first : UInt8) (bs : List UInt8) : Piece :=
  match bs with
  | x :: rest => if first = 48 ∧ (x = 120 ∨ x = 88) then hexadecimal rest else decimal first bs
  | [] => decimal first bs

def keyword? (word : String) : Option Token.Kind :=
  [.ifWord, .elseWord, .varWord, .forWord, .returnWord].find? (·.spelling = word)

/-- A keyword or a name. Behind a name blanks are taken along, and an opening parenthesis there
makes it the name of a function. -/
def word (first : UInt8) (bs : List UInt8) : Piece :=
  let tail := bs.takeWhile isNameByte
  let text := Utf8.decode (first :: tail)
  match keyword? text with
  | some kind => .token ⟨kind, text⟩ tail.length
  | none =>
    let rest := bs.drop tail.length
    let blanks := rest.takeWhile isCallBlank
    let kind :=
      if (rest.drop blanks.length).head? = some 40 then Token.Kind.function else .identifier
    .token ⟨kind, text⟩ (tail.length + blanks.length)

/-- How a message shows an octet that starts no token: as the character it codes in Latin-1,
escaped unless it is plain ASCII. -/
def showByte (b : UInt8) : String :=
  if b = 9 then "\\t" else if b = 10 then "\\n" else if b = 13 then "\\r"
  else if b = 39 then "\\'" else if b = 34 then "\\\"" else if b = 92 then "\\\\"
  else if 32 ≤ b && b ≤ 126 then String.singleton (Char.ofUInt8 b)
  else "\\u\x7b" ++ String.ofList (Nat.toDigits 16 b.toNat) ++ "\x7d"

def longest (short : Piece) (bs : List UInt8) : List (UInt8 × Token.Kind) → Piece
  | [] => short
  | (b, kind) :: more => if bs.head? = some b then .symbol kind 1 else longest short bs more

def piece (b : UInt8) (bs : List UInt8) : Piece :=
  match Char.ofUInt8 b with
  | '\n' => .newline
  | '/' => slash bs
  | '(' => .symbol .lparen 0
  | ')' => .symbol .rparen 0
  | '{' => .symbol .lbrace 0
  | '}' => .symbol .rbrace 0
  | ';' => .symbol .semicolon 0
  | ',' => .symbol .comma 0
  | '*' => .symbol (.operator .mul) 0
  | '%' => .symbol (.operator .mod) 0
  | '+' => longest (.symbol (.operator .plus) 0) bs [(43, .bump .increment)]
  | '-' => longest (.symbol (.operator .minus) 0) bs [(45, .bump .decrement)]
  | '<' =>
    longest (.symbol (.operator .less) 0) bs
      [(61, .operator .lessEq), (60, .operator .shiftLeft)]
  | '>' =>
    longest (.symbol (.operator .greater) 0) bs
      [(61, .operator .greaterEq), (62, .operator .shiftRight)]
  | '=' => longest (.symbol .assign 0) bs [(61, .operator .eq)]
  | '!' => longest (.symbol (.logical .not) 0) bs [(61, .operator .notEq)]
  | '&' => longest (.error "Syntax error near '&'" 0) bs [(38, .logical .and)]
  | '|' => longest (.error "Syntax error near '|'" 0) bs [(124, .logical .or)]
  | '"' | '\'' => string b [] 0 .plain bs
  | _ =>
    if isBlank b then .blank 0
    else if isDigit b || (b == 46 && (bs.head?.map isDigit).getD false) then number b bs
    else if isNameStart b then word b bs
    else .error ("Illegal character '" ++ showByte b ++ "'") 0

end Scriptlet.Lexer
