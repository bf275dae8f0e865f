import Scriptlet.Session

/-!
Requests: what hosts and native functions may ask of a session, each with the type of its answer.
A request is answered at once and runs no script.
-/

namespace Scriptlet

inductive Request where
  | id
  | limits
  | result
  | setResult (value : String)
  | report
  | setError (message : String)
  | line
  | openBlock
  | closeBlock (id : BlockId)
  | getVar (name : String)
  | setVar (name value : String)
  | setLocal (name value : String)
  | setGlobal (name value : String)
  | define (name : String) (callable : Callable)
  | undefine (name : String)
  | lookup (name : String)
  | currentCall
  | user
  | setUser (user : Option String)
  | openScript (script : String)
  | closeScript
  | readToken (phase : Phase)
  | unread (token : Token)
  | currentToken
  | saveInput
  | restoreInput (input : Input)
  | depth
  | blocks
  deriving DecidableEq, Repr

@[reducible] def Request.Answer : Request → Type
  | .id => Handle
  | .limits => Limits
  | .result => String
  | .report => Option String
  | .line => Nat
  | .openBlock => BlockId
  | .closeBlock _ => Except Fault.Cause Unit
  | .getVar _ => Option String
  | .undefine _ => Option Callable
  | .lookup _ => Option Callable
  | .currentCall => Option Call
  | .user => Option String
  | .readToken _ => Token
  | .currentToken => Token
  | .saveInput => Input
  | .depth => Nat
  | .blocks => Nat
  | .setResult _ | .setError _ | .setVar _ _ | .setLocal _ _ | .setGlobal _ _ | .define _ _
  | .setUser _ | .openScript _ | .closeScript | .unread _ | .restoreInput _ => Unit

namespace Session

def answer (s : Session) : (r : Request) → r.Answer × Session × List Event
  | .id => (s.id, s, [])
  | .limits => (s.limits, s, [])
  | .result => (s.result, s, [])
  | .setResult value => ((), { s with result := value }, [])
  | .report => (s.report, s, [])
  | .setError message => ((), s.setError message, [])
  | .line => (s.line, s, [])
  | .openBlock =>
    let (id, scopes) := s.scopes.openBlock
    (id, { s with scopes }, [.openBlock s.id id])
  | .closeBlock id =>
    match s.scopes.close id with
    | .ok scopes => (.ok (), { s with scopes }, [.closeBlock s.id id])
    | .error cause => (.error cause, s, [.closeBlock s.id id])
  | .getVar name => (s.getVar? name, s, [])
  | .setVar name value => ((), s.assign name value, [])
  | .setLocal name value => ((), s.setLocal name value, [])
  | .setGlobal name value => ((), s.setGlobal name value, [])
  | .define name callable =>
    ((), { s with functions := s.functions.insert name callable }, [.define s.id name])
  | .undefine name =>
    (s.functions.get? name, { s with functions := s.functions.erase name }, [])
  | .lookup name => (s.functions.get? name, s, [])
  | .currentCall => (s.call, s, [])
  | .user => (s.user, s, [])
  | .setUser user => ((), { s with user }, [])
  | .openScript script => ((), { s with input := .ofScript script }, [])
  | .closeScript => ((), { s with input := s.input.close }, [])
  | .readToken phase =>
    let (t, s) := s.readToken phase
    (t, s, [.token phase t])
  | .unread t => ((), s.unread t, [])
  | .currentToken => (s.token, s, [])
  | .saveInput => (s.input, s, [])
  | .restoreInput input => ((), { s with input }, [])
  | .depth => (s.depth, s, [])
  | .blocks => (s.scopes.depth, s, [])

end Session

end Scriptlet
