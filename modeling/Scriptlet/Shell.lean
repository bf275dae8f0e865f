import Scriptlet.Manager
import Scriptlet.Argument
import Scriptlet.Text.Blank

/-!
The command line: evaluate a file or a piece of code, or read statements from a prompt.
-/

namespace Scriptlet.Shell

structure Console where
  out : String := ""
  err : String := ""
  deriving DecidableEq, Repr

namespace Console

def print (c : Console) (s : String) : Console := { c with out := c.out ++ s }

def complain (c : Console) (s : String) : Console := { c with err := c.err ++ s }

end Console

structure Output where
  console : Console
  code : Nat
  deriving DecidableEq, Repr

open Program

def write (args : List String) : Program Console Unit := do
  let v ← ofCause (Argument.extract "%*" args)
  setHost ((← getHost).print (" ".intercalate v.rest ++ "\n"))
  ask (.setResult "")

def strlen (args : List String) : Program Console Unit := do
  let v ← ofCause (Argument.extract "%s" args)
  let s ← ofCause (v.takeString 0)
  ask (.setResult (toString s.length))

def host : Host Console where
  natives key args :=
    match key with
    | "write" => write args
    | "strlen" => strlen args
    | _ => .done ()

structure Desk where
  manager : Manager Console
  id : Handle

namespace Desk

def console (d : Desk) : Console := d.manager.state

def update (d : Desk) (f : Console → Console) : Desk :=
  { d with manager := { d.manager with state := f d.manager.state } }

def start (console : Console) : Desk :=
  let manager : Manager Console := { host, state := console }
  let (id, manager) := manager.openSession none none
  let manager := (manager.request id (.define "write" ⟨"write", false⟩)).2
  let manager := (manager.request id (.define "strlen" ⟨"strlen", false⟩)).2
  ⟨manager, id⟩

def conclude (d : Desk) : Except Fault String → Desk
  | .ok value => if value = "" then d else d.update (·.print (value ++ "\n"))
  | .error fault =>
    match (d.manager.request d.id .report).1 with
    | .ok (some report) => d.update (·.complain report)
    | _ => d.update (·.complain (fault.text ++ "\n"))

def evalWith (d : Desk) (r : Option (Except Fault String × Manager Console)) :
    Option (Bool × Desk) :=
  r.map fun (outcome, manager) => (outcome.toBool, ({ d with manager }).conclude outcome)

def eval (fuel : Nat) (d : Desk) (script : String) : Option (Bool × Desk) :=
  d.evalWith (d.manager.eval fuel d.id false script)

def evalFile (fuel : Nat) (d : Desk) (path : String) (contents : Except ReadFailure String) :
    Option (Bool × Desk) :=
  d.evalWith (d.manager.evalFile fuel d.id path contents)

end Desk

/-! The prompt -/

def banner : String :=
  "ejs v0.1.0\nType statements and press Enter. Type .exit to quit.\n\n"

def mark : String := "> "

def farewell : String := "Goodbye!\n"

def enter (fuel : Nat) (d : Desk) (line : String) : Option (Bool × Desk) :=
  let input := Text.trim line
  if input = ".exit" ∨ input = ".quit" then some (false, d)
  else if input = "" then some (true, d)
  else (d.eval fuel input).map fun (_, d) => (true, d)

def unreadableInput : String := "Error reading input: " ++ ReadFailure.notText.text ++ "\n"

def linesOf : List UInt8 → List (List UInt8)
  | [] => []
  | b :: bs =>
    match b == 10, linesOf bs with
    | true, lines => [b] :: lines
    | false, [] => [[b]]
    | false, line :: lines => (b :: line) :: lines

/-- Read one line's octets from the prompt. Octets that are no text end the conversation. -/
def offer (fuel : Nat) (d : Desk) (bytes : List UInt8) : Option (Bool × Desk) :=
  match Utf8.decode? bytes with
  | none => some (false, d.update (·.complain unreadableInput))
  | some line => enter fuel d line

def prompt (fuel : Nat) (d : Desk) : List (List UInt8) → Option Desk
  | [] => some (d.update (·.print mark))
  | bytes :: lines =>
    match offer fuel (d.update (·.print mark)) bytes with
    | none => none
    | some (true, d) => prompt fuel d lines
    | some (false, d) => some d

/-! Commands -/

inductive Command where
  | prompt
  | help
  | file (path : String)
  | code (script : String)
  | misuse
  deriving DecidableEq, Repr

def Command.ofArgs : List String → Command
  | [] => .prompt
  | [arg] => if arg = "-h" ∨ arg = "--help" then .help else .file arg
  | [option, script] => if option = "-e" ∨ option = "--eval" then .code script else .misuse
  | _ => .misuse

def usage : String :=
  "ejs - embeddable script engine\n\nUsage:\n" ++
  "  ejs <file>                  Evaluate a script file\n" ++
  "  ejs -e \"code\"               Evaluate code\n" ++
  "  ejs --eval \"code\"           Evaluate code\n" ++
  "  ejs                         Start REPL (interactive mode)\n"

def conclude (r : Option (Bool × Desk)) : Option Output :=
  r.map fun (succeeded, d) => ⟨d.console, if succeeded then 0 else 1⟩

def run (fuel : Nat) (args : List String) (stdin : List UInt8)
    (read : String → Except ReadFailure String) : Option Output :=
  match Command.ofArgs args with
  | .prompt =>
    (prompt fuel (.start { out := banner }) (linesOf stdin)).map fun d =>
      ⟨d.console.print farewell, 0⟩
  | .help => some ⟨{ err := usage }, 0⟩
  | .file path => conclude ((Desk.start {}).evalFile fuel path (read path))
  | .code script => conclude ((Desk.start {}).eval fuel script)
  | .misuse => some ⟨{ err := usage }, 1⟩

end Scriptlet.Shell
