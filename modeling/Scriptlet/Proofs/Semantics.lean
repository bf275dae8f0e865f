import Scriptlet.Value
import Scriptlet.Session
import Scriptlet.Proofs.Syntax

/-!
What expressions mean, by recursion on the tree. Evaluation has a value or the first cause of
failure, and the calls it makes up to then.
-/

namespace Scriptlet

/-- Native functions as functions of their arguments, by the keys that the host knows them by. -/
abbrev Natives := String → List String → Except Fault String

abbrev Calls := List (String × List String)

structure Evaluation (α : Type) where
  outcome : Except Fault.Cause α
  calls : Calls := []

namespace Evaluation

variable {α β : Type}

def bind (x : Evaluation α) (f : α → Evaluation β) : Evaluation β :=
  match x.outcome with
  | .ok a => ⟨(f a).outcome, x.calls ++ (f a).calls⟩
  | .error cause => ⟨.error cause, x.calls⟩

instance : Monad Evaluation where
  pure a := ⟨.ok a, []⟩
  bind := bind

def ofExcept (r : Except Fault.Cause α) : Evaluation α := ⟨r, []⟩

def fail (cause : Fault.Cause) : Evaluation α := ⟨.error cause, []⟩

@[simp] theorem outcome_pure (a : α) : (pure a : Evaluation α).outcome = .ok a := rfl

@[simp] theorem calls_pure (a : α) : (pure a : Evaluation α).calls = [] := rfl

theorem bind_ok {x : Evaluation α} {a : α} (h : x.outcome = .ok a) (f : α → Evaluation β) :
    x >>= f = ⟨(f a).outcome, x.calls ++ (f a).calls⟩ := by
  show bind x f = _
  simp only [bind, h]

theorem bind_error {x : Evaluation α} {cause : Fault.Cause} (h : x.outcome = .error cause)
    (f : α → Evaluation β) : x >>= f = ⟨.error cause, x.calls⟩ := by
  show bind x f = _
  simp only [bind, h]

@[simp] theorem pure_bind (a : α) (f : α → Evaluation β) : (pure a : Evaluation α) >>= f = f a := by
  rw [bind_ok rfl]
  rfl

@[simp] theorem bind_pure (x : Evaluation α) : x >>= pure = x := by
  obtain ⟨outcome, calls⟩ := x
  cases outcome with
  | ok a => simp [bind_ok (x := ⟨.ok a, calls⟩) rfl]
  | error cause => simp [bind_error (x := ⟨.error cause, calls⟩) rfl]

end Evaluation

structure Env where
  scopes : ScopeStack
  functions : Table Callable
  natives : Natives

namespace Env

def lookup (env : Env) (name : String) : Evaluation String :=
  match env.scopes.get? name with
  | some value => pure value
  | none => .fail (.undefinedVariable name)

def function (env : Env) (name : String) : Evaluation Callable :=
  match env.functions.get? name with
  | some callable => pure callable
  | none => .fail (.undefinedFunction name)

def invoke (env : Env) (key : String) (args : List String) : Evaluation String :=
  ⟨(env.natives key args).mapError (·.cause), [(key, args)]⟩

end Env

namespace Syntax

def applyUnary : Unary → String → Except Fault.Cause String
  | .minus, value => Value.negate value
  | .not, value => .ok (Value.not value)

/-- Join a value by `&&` or `||` with one that is looked for only if the first does not decide. -/
def connect (op : Connective) (left : String) (right : Evaluation String) : Evaluation String :=
  match op.1, Value.truthy left with
  | .and, false => pure "0"
  | .or, true => pure "1"
  | op, _ => right >>= fun right => .ofExcept (Value.logical op left right)

mutual

def Cond.eval (env : Env) : Cond → Evaluation String
  | .operand r => r.eval env
  | .join left op right => left.eval env >>= fun value => connect op value (right.eval env)

def Rel.eval (env : Env) : Rel → Evaluation String
  | .operand a => a.eval env
  | .compare left op right =>
    left.eval env >>= fun value => right.eval env >>= fun value' =>
      .ofExcept ((Value.relate op.1 value value').map Value.ofBool)

def Arith.eval (env : Env) : Arith → Evaluation String
  | .operand t => t.eval env
  | .apply left op right =>
    left.eval env >>= fun value => right.eval env >>= fun value' =>
      .ofExcept (Value.arithmetic op.1 value value')

def Term.eval (env : Env) : Term → Evaluation String
  | .unary op t => t.eval env >>= fun value => .ofExcept (applyUnary op value)
  | .literal l => pure l.value
  | .variable n => env.lookup n.text
  | .call name args =>
    env.function name.text >>= fun callable => args.eval env >>= fun values =>
      env.invoke callable.key values
  | .paren c => c.eval env

def Args.eval (env : Env) : Args → Evaluation (List String)
  | .nil => pure []
  | .cons first rest =>
    first.eval env >>= fun value => rest.eval env >>= fun values => pure (value :: values)

end

end Syntax

end Scriptlet
