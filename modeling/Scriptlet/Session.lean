import Scriptlet.Lexer
import Scriptlet.Scope
import Scriptlet.Event

/-!
A session: the script being read, the variables and functions it sees, the call under construction
and the last result and report.
-/

namespace Scriptlet

structure Limits where
  maxDepth : Nat := 100
  /-- Room set aside for a script. It bounds nothing. -/
  scriptCapacity : Nat := 1023
  deriving DecidableEq, Repr

/-- A native function as a table refers to it: the key the host knows it by, and whether the host
supplied a plain function or a closure. -/
structure Callable where
  key : String
  closure : Bool
  deriving DecidableEq, Repr

def Callable.text (c : Callable) : String := if c.closure then "Plugin(..)" else "Native(..)"

structure Call where
  name : String
  args : List String := []
  deriving DecidableEq, Repr

structure Session where
  id : Handle
  limits : Limits := {}
  input : Input := {}
  scopes : ScopeStack := {}
  functions : Table Callable := {}
  call : Option Call := none
  result : String := ""
  report : Option String := none
  token : Token := .eof
  depth : Nat := 0
  user : Option String := none
  deriving DecidableEq, Repr

namespace Session

def line (s : Session) : Nat := s.input.line

def reportText (s : Session) (message : String) (line : Nat) : String :=
  message ++ "\n At line " ++ toString line ++ ", line => \n\n " ++
    s.input.position.lineText ++ "\n"

def setError (s : Session) (message : String) : Session :=
  { s with report := some (s.reportText message s.line) }

def recordFault (s : Session) (f : Fault) : Session :=
  { s with report := some (s.reportText f.cause.text (f.orLine s.line).line) }

def readToken (s : Session) (phase : Phase) : Token × Session :=
  let (t, input) := s.input.next phase
  (t, { s with input, token := t })

def unread (s : Session) (t : Token) : Session := { s with input := s.input.unread t }

def getVar? (s : Session) (name : String) : Option String := s.scopes.get? name

def assign (s : Session) (name value : String) : Session :=
  { s with scopes := s.scopes.assign name value }

def setLocal (s : Session) (name value : String) : Session :=
  { s with scopes := s.scopes.setLocal name value }

def setGlobal (s : Session) (name value : String) : Session :=
  { s with scopes := s.scopes.setGlobal name value }

end Session

/-- A session and the events it has caused, the latest first. -/
structure Scene where
  session : Session
  journal : List Event := []

/-- Something done on a session that may fail. What was done before a failure stays done. -/
abbrev Act := ExceptT Fault (StateM Scene)

namespace Act

variable {α : Type}

def session : Act Session := do return (← get).session

def setSession (s : Session) : Act Unit := modify fun scene => { scene with session := s }

def update (f : Session → Session) : Act Unit :=
  modify fun scene => { scene with session := f scene.session }

def emit (e : Event) : Act Unit := modify fun scene => { scene with journal := e :: scene.journal }

def fail (cause : Fault.Cause) : Act α := throw { cause }

def ofExcept : Except Fault.Cause α → Act α
  | .ok a => pure a
  | .error cause => fail cause

def readToken (phase : Phase) : Act Token := do
  let (t, s) := (← session).readToken phase
  setSession s
  emit (.token phase t)
  return t

def nextToken (phase : Phase) : Act Token := do
  let t ← readToken phase
  if t.kind = .error then throw { cause := .malformed t.text, line := (← session).line }
  return t

def unread (t : Token) : Act Unit := update (·.unread t)

def expect (phase : Phase) (kind : Token.Kind) : Act Unit := do
  let t ← nextToken phase
  if t.kind ≠ kind then fail (.expected kind t)

def openBlock : Act BlockId := do
  let s ← session
  let (id, scopes) := s.scopes.openBlock
  setSession { s with scopes }
  return id

def closeBlock (id : BlockId) : Act Unit := do
  let s ← session
  let scopes ← ofExcept (s.scopes.close id)
  setSession { s with scopes }

def takeResult : Act String := do
  let s ← session
  setSession { s with result := "" }
  return s.result

def setResult (value : String) : Act Unit := update fun s => { s with result := value }

def readVariable (name : String) : Act String := do
  match (← session).getVar? name with
  | some value => return value
  | none => fail (.undefinedVariable name)

end Act

end Scriptlet
