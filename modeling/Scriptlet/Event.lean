import Scriptlet.Fault

/-!
The log. Everything noteworthy an engine does is an event; an observer decides what becomes of it.
-/

namespace Scriptlet

inductive Event where
  | openEngine (engine : Handle)
  | closeEngine (engine : Handle)
  | eval (engine : Handle) (size : Nat)
  | evalFailed (engine : Handle) (fault : Fault)
  | openBlock (engine : Handle) (block : BlockId)
  | closeBlock (engine : Handle) (block : BlockId)
  | define (engine : Handle) (name : String)
  | register (name : String)
  | call (engine : Handle) (name : String) (count : Nat)
  | token (phase : Phase) (token : Token)
  | push (outer inner : String) (depth : Nat)
  | done (frame : String) (phase : Phase)
  | enterBlock (block : BlockId)
  deriving DecidableEq, Repr

namespace Event

def level : Event → String
  | .token _ _ | .push _ _ _ | .done _ _ | .enterBlock _ => "TRACE"
  | _ => "DEBUG"

def message : Event → String
  | .openEngine _ => "open engine"
  | .closeEngine _ => "close engine"
  | .eval _ _ => "eval"
  | .evalFailed _ _ => "eval failed"
  | .openBlock _ _ => "open block"
  | .closeBlock _ _ => "close block"
  | .define _ _ => "set global function"
  | .register _ => "registering function on table"
  | .call _ _ _ => "native call"
  | .token _ _ => "token"
  | .push _ _ _ => "push"
  | .done _ _ => "done"
  | .enterBlock _ => "enter brace scope"

def engineField (engine : Handle) : String × String := ("engine", "engine " ++ engine.text)

def fields : Event → List (String × String)
  | .openEngine engine | .closeEngine engine => [engineField engine]
  | .eval engine size => [engineField engine, ("len", toString size)]
  | .evalFailed engine fault => [engineField engine, ("error", fault.text)]
  | .openBlock engine block | .closeBlock engine block =>
    [engineField engine, ("block", block.text)]
  | .define engine name => [engineField engine, ("name", name)]
  | .register name => [("name", name)]
  | .call engine name count => [engineField engine, ("name", name), ("argc", toString count)]
  | .token phase t => [("state", phase.name), ("id", t.kind.name), ("text", t.text)]
  | .push outer inner depth => [("from", outer), ("to", inner), ("depth", toString depth)]
  | .done frame phase => [("frame", frame), ("state", phase.name)]
  | .enterBlock block => [("block", block.text)]

end Event

end Scriptlet
