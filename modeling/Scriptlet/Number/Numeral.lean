import Scriptlet.Number
import Scriptlet.Number.Digits

/-!
Numerals: the texts that are numbers in their entirety. A numeral is an optional sign followed by
a hexadecimal integer, a decimal integer, or a decimal with a fraction, an exponent or both.
Nothing else counts, not even surrounding blanks.
-/

namespace Scriptlet

structure Numeral.Exponent where
  negative : Bool
  digits : List Char
  deriving DecidableEq, Repr

inductive Numeral where
  | hex (negative : Bool) (digits : List Char)
  | decimal (negative : Bool) (whole : List Char) (fraction : Option (List Char))
      (exponent : Option Numeral.Exponent)
  deriving DecidableEq, Repr

namespace Numeral

open Digits

def splitSign : List Char → Bool × List Char
  | '-' :: cs => (true, cs)
  | '+' :: cs => (false, cs)
  | cs => (false, cs)

/-- Read an exponent that makes up a whole text. The outer option tells failure, the inner one an
absent exponent. -/
def readExponent : List Char → Option (Option Exponent)
  | [] => some none
  | c :: cs =>
    let (negative, digits) := splitSign cs
    if (c = 'e' ∨ c = 'E') ∧ digits ≠ [] ∧ digits.all Char.isDigit then
      some (some ⟨negative, digits⟩)
    else none

/-- Read an unsigned decimal. There has to be a digit before or after the point. -/
def readDecimal (negative : Bool) (cs : List Char) : Option Numeral :=
  let whole := cs.takeWhile Char.isDigit
  match cs.dropWhile Char.isDigit with
  | '.' :: rest =>
    let fraction := rest.takeWhile Char.isDigit
    if whole = [] ∧ fraction = [] then none
    else (readExponent (rest.dropWhile Char.isDigit)).map (.decimal negative whole (some fraction))
  | rest =>
    if whole = [] then none else (readExponent rest).map (.decimal negative whole none)

def readUnsigned (negative : Bool) : List Char → Option Numeral
  | '0' :: 'x' :: digits | '0' :: 'X' :: digits =>
    if digits ≠ [] ∧ digits.all isHexDigit then some (.hex negative digits) else none
  | cs => readDecimal negative cs

def read (s : String) : Option Numeral :=
  let (negative, body) := splitSign s.toList
  readUnsigned negative body

/-- The power of ten an exponent stands for. Once 65536 is reached further digits no longer count. -/
def Exponent.value (e : Exponent) : Int :=
  let n : Int := toNatUpTo 0x10000 10 e.digits
  if e.negative then -n else n

/-- A decimal of at most 801 digits on the same side of every turning point of rounding. All of
these points have fewer than 800 significant digits, so of the digits behind the 800th it only
matters whether one of them is not zero, which a last digit 1 records. -/
def condense (significant : List Char) (exponent : Int) : Nat × Int :=
  let kept := toNat 10 (significant.take 800)
  let lost := significant.drop 800
  if lost.all (· = '0') then (kept, exponent + lost.length)
  else (kept * 10 + 1, exponent + lost.length - 1)

/-- The floating-point number nearest to the number that digits write, times a power of ten.
Values past either end of the range are settled by their number of digits, so neither long digits
nor a long exponent cost much. -/
def nearest (digits : List Char) (exponent : Int) : Float :=
  let significant := digits.dropWhile (· = '0')
  let magnitude : Int := significant.length + exponent
  if significant = [] then 0.0
  else if 310 < magnitude then 1.0 / 0.0
  else if magnitude < -330 then 0.0
  else
    match condense significant exponent with
    | (n, .ofNat e) => Float.ofScientific n false e
    | (n, .negSucc e) => Float.ofScientific n true (e + 1)

def signed (negative : Bool) (x : Float) : Float := if negative then -x else x

def hexFloat (digits : List Char) : Float :=
  digits.foldl (fun x c => x * 16.0 + Float.ofNat (digitValue c)) 0.0

def integerLimit : Nat := 0x8000000000000001

/-- The number a numeral denotes. An integer that 64 bits cannot hold becomes a floating-point
number; the sign of a hexadecimal number is applied after that choice. -/
def value : Numeral → Number
  | .hex negative digits =>
    let n := toNatUpTo integerLimit 16 digits
    if Number.Fits n then .int (Int64.ofInt (if negative then -(n : Int) else n))
    else .float (signed negative (hexFloat digits))
  | .decimal negative whole none none =>
    let n := toNatUpTo integerLimit 10 whole
    let v : Int := if negative then -(n : Int) else n
    if Number.Fits v then .int (Int64.ofInt v) else .float (signed negative (nearest whole 0))
  | .decimal negative whole fraction exponent =>
    let places := fraction.getD []
    let power := (exponent.map (·.value)).getD 0
    .float (signed negative (nearest (whole ++ places) (power - places.length)))

end Numeral

def Number.ofText? (s : String) : Option Number := (Numeral.read s).map Numeral.value

end Scriptlet
