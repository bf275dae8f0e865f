import Scriptlet.Native
import Scriptlet.Argument
import Scriptlet.Value

/-!
A stock of native functions that lets scripts reach everything a session offers. Functions that are
closures of the host note each call in the host's ledger.
-/

namespace Scriptlet.Stock

structure Entry where
  engine : Handle
  key : String
  args : List String
  deriving DecidableEq, Repr

/-- The host's state: a counter that scripts can advance, the calls noted, and the events observed
while it watches. Calls and events stand with the latest first. -/
structure Ledger where
  counter : Nat := 0
  calls : List Entry := []
  watching : Bool := false
  events : List Event := []
  deriving DecidableEq, Repr

def Ledger.observe (event : Event) (l : Ledger) : Ledger :=
  if l.watching then { l with events := event :: l.events } else l

abbrev Script := Program Ledger

open Program

def plainKeys : List String := ["add", "join", "fail"]

def closureKeys : List String :=
  ["failat", "count", "probe", "echo", "silent", "setvar", "setlocal", "setglobal", "getvar",
    "run", "runblock", "try", "inject", "token", "peek", "replay", "putback", "openblock",
    "closeblock", "line", "seterror", "define", "undefine", "format", "user", "parse", "result"]

def callable (key : String) : Callable := ⟨key, !plainKeys.contains key⟩

def arg (args : List String) (i : Nat) : String := args.getD i ""

def unsigned? (s : String) : Option Nat :=
  let digits :=
    match s.toList with
    | '+' :: cs => cs
    | cs => cs
  let n := Digits.toNatUpTo 0x10000000000000000 10 digits
  if digits ≠ [] ∧ digits.all Char.isDigit ∧ n < 0x10000000000000000 then some n else none

def floatBits (x : Float) : String :=
  if x.isNaN then "nan"
  else
    let digits := Nat.toDigits 16 x.toBits.toNat
    String.ofList (List.replicate (16 - digits.length) '0' ++ digits)

def answerWith (value : String) : Script Unit := ask (.setResult value)

def showToken (t : Token) : String := t.kind.name ++ ":" ++ t.text

def showCall : Option Call → String
  | some c => c.name ++ "/" ++ toString c.args.length ++ "/" ++ "|".intercalate c.args
  | none => "none"

def showItem : Argument.Value → String
  | .string s => "s:" ++ s
  | .integer n => "d:" ++ toString n.toInt
  | .float x => "f:" ++ floatBits x
  | .boolean b => "b:" ++ (if b then "true" else "false")

def phaseOf (name : String) : Phase := (Phase.ofName? name).getD .stmt

def add (args : List String) : Script Unit := do
  let v ← ofCause (Argument.extract "%d %d" args)
  let a ← ofCause (v.takeInteger 0)
  let b ← ofCause (v.takeInteger 1)
  answerWith (toString (a + b).toInt)

def join (args : List String) : Script Unit := do
  let v ← ofCause (Argument.extract "%s, %*" args)
  let separator ← ofCause (v.takeString 0)
  answerWith (separator.intercalate v.rest)

def failAt (args : List String) : Script Unit :=
  let kind := (Fault.Kind.ofName? (arg args 0)).getD .type
  raise { cause := .reported kind (arg args 1), line := (unsigned? (arg args 2)).getD 0 }

def count : Script Unit := do
  let ledger ← getHost
  let counter := ledger.counter + 1
  setHost { ledger with counter }
  answerWith (toString counter)

def evaluate (enclosed : Bool) (script : String) : Script (Except Fault String) :=
  .eval enclosed script .done

def run (enclosed : Bool) (args : List String) : Script Unit := do
  let value ← ofExcept (← evaluate enclosed (arg args 0))
  answerWith value

def attempt (args : List String) : Script Unit := do
  match ← evaluate false (arg args 0) with
  | .ok value => answerWith ("ok:" ++ value)
  | .error f =>
    answerWith (f.cause.kind.name ++ ":" ++ toString f.line ++ ":" ++ f.cause.message)

def token (args : List String) : Script Token := ask (.readToken (phaseOf (arg args 0)))

def peek (args : List String) : Script Unit := do
  let t ← token args
  ask (.unread t)
  answerWith (showToken t)

def replay (args : List String) : Script Unit := do
  let saved ← ask .saveInput
  let t ← token args
  ask (.restoreInput saved)
  answerWith (showToken t)

def closeBlock (args : List String) : Script Unit := do
  let raw := (unsigned? (arg args 0)).getD 0
  ofCause (← ask (.closeBlock (.ofRaw (UInt64.ofNat raw))))

def format (args : List String) : Script Unit := do
  let v ← ofCause (Argument.extract (arg args 0) (args.drop 1))
  answerWith (";".intercalate (v.items.map showItem ++ v.rest.map ("*:" ++ ·)))

def parse (args : List String) : Script Unit := do
  let flags := if arg args 1 = "1" then Flags.execute else Flags.none
  let phase ← ofExcept (← Program.parse (phaseOf (arg args 0)) flags .done)
  answerWith (phase.name ++ ":" ++ (← ask .result))

def body (key : String) (args : List String) : Script Unit :=
  match key with
  | "add" => add args
  | "join" => join args
  | "fail" => raise { cause := .reported .type "refused" }
  | "failat" => failAt args
  | "count" => count
  | "probe" => do answerWith (showCall (← ask .currentCall))
  | "echo" => answerWith (arg args 0)
  | "setvar" => ask (.setVar (arg args 0) (arg args 1))
  | "setlocal" => ask (.setLocal (arg args 0) (arg args 1))
  | "setglobal" => ask (.setGlobal (arg args 0) (arg args 1))
  | "getvar" => do answerWith ((← ask (.getVar (arg args 0))).getD "<undefined>")
  | "run" => run false args
  | "runblock" => run true args
  | "try" => attempt args
  | "inject" => do
    ask (.openScript (arg args 0))
    answerWith "injected"
  | "token" => do answerWith (showToken (← token args))
  | "peek" => peek args
  | "replay" => replay args
  | "putback" =>
    ask (.unread ⟨(Token.Kind.ofName? (arg args 0)).getD .error, arg args 1⟩)
  | "openblock" => do answerWith (toString (← ask .openBlock).toRaw.toNat)
  | "closeblock" => closeBlock args
  | "line" => do answerWith (toString (← ask .line))
  | "seterror" => ask (.setError (arg args 0))
  | "define" => ask (.define (arg args 0) (callable (arg args 1)))
  | "undefine" => do
    answerWith (Value.ofBool (← ask (.undefine (arg args 0))).isSome)
  | "format" => format args
  | "user" => do answerWith ((← ask .user).getD "<none>")
  | "parse" => parse args
  | "result" => do answerWith ("[" ++ (← ask .result) ++ "]")
  | _ => .done ()

def note (key : String) (args : List String) : Script Unit := do
  let engine ← ask .id
  let ledger ← getHost
  setHost { ledger with calls := ⟨engine, key, args⟩ :: ledger.calls }

def native (key : String) (args : List String) : Script Unit := do
  if !plainKeys.contains key then note key args
  body key args

def host : Host Ledger := { natives := native, observe := Ledger.observe }

end Scriptlet.Stock
