import Scriptlet.Request

/-!
Native functions. A native function is a program over the session that calls it: it makes
requests, reads and writes the host's own state, and may evaluate or parse further script on the
same session. Programs are data, so that the machine can run the script they ask for without
leaving its own loop.
-/

namespace Scriptlet

inductive Program (H : Type) (α : Type) where
  | done (a : α)
  | raise (fault : Fault)
  | request (r : Request) (next : r.Answer → Program H α)
  | readHost (next : H → Program H α)
  | writeHost (state : H) (next : Program H α)
  | eval (enclosed : Bool) (script : String) (next : Except Fault String → Program H α)
  | parse (start : Phase) (flags : Flags) (next : Except Fault Phase → Program H α)

namespace Program

variable {H α β : Type}

def bind : Program H α → (α → Program H β) → Program H β
  | .done a, f => f a
  | .raise fault, _ => .raise fault
  | .request r next, f => .request r fun a => (next a).bind f
  | .readHost next, f => .readHost fun h => (next h).bind f
  | .writeHost state next, f => .writeHost state (next.bind f)
  | .eval enclosed script next, f => .eval enclosed script fun r => (next r).bind f
  | .parse start flags next, f => .parse start flags fun r => (next r).bind f

instance : Monad (Program H) where
  pure := .done
  bind := bind

def ask (r : Request) : Program H r.Answer := .request r .done

def getHost : Program H H := .readHost .done

def setHost (state : H) : Program H Unit := .writeHost state (.done ())

def ofExcept : Except Fault α → Program H α
  | .ok a => .done a
  | .error fault => .raise fault

def ofCause : Except Fault.Cause α → Program H α
  | .ok a => .done a
  | .error cause => .raise { cause }

end Program

/-- What a host brings: a meaning for the keys of its functions, and an observer of events. -/
structure Host (H : Type) where
  natives : String → List String → Program H Unit
  observe : Event → H → H := fun _ h => h

def Host.absorb {H : Type} (host : Host H) (journal : List Event) (state : H) : H :=
  journal.foldr host.observe state

end Scriptlet
