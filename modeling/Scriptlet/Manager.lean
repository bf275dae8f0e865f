import Scriptlet.Machine
import Scriptlet.Shelf
import Scriptlet.Directory

/-!
The session manager. Hosts address sessions by handle; a handle whose session is closed is refused.
Sessions may share tables of variables and of functions, and all sessions draw their block serials
from one counter. While a session works it has its tables and the counter to itself, and what it
made of them is put back afterwards.
-/

namespace Scriptlet

/-- An open session with the places of its tables. The session's own copies of the tables are those
of its last work, and are renewed before the next. -/
structure Seat where
  session : Session
  globals : Holding
  functions : Holding
  deriving DecidableEq, Repr

structure Manager (H : Type) where
  host : Host H
  state : H
  limits : Limits := {}
  seats : HandleTable Seat := {}
  globals : Shelf (Table String) := {}
  functions : Shelf (Table Callable) := {}
  serial : UInt32 := 0

namespace Manager

variable {H α : Type}

def emit (m : Manager H) (event : Event) : Manager H :=
  { m with state := m.host.absorb [event] m.state }

def openSession (m : Manager H) (globals functions : Option Nat) : Handle × Manager H :=
  let (heldGlobals, globalShelf) := m.globals.hold {} globals
  let (heldFunctions, functionShelf) := m.functions.hold {} functions
  let (id, seats) :=
    m.seats.insertWith fun id => ⟨{ id, limits := m.limits }, heldGlobals, heldFunctions⟩
  (id, emit { m with seats, globals := globalShelf, functions := functionShelf }
    (.openEngine id))

def isOpen (m : Manager H) (id : Handle) : Bool := m.seats.contains id

def size (m : Manager H) : Nat := m.seats.size

def restore (m : Manager H) (seat : Seat) : Session :=
  { seat.session with
    scopes :=
      { seat.session.scopes with
        globals := (m.globals.get? seat.globals.place).getD {}
        serial := m.serial }
    functions := (m.functions.get? seat.functions.place).getD {} }

def store (m : Manager H) (id : Handle) (seat : Seat) (s : Session) : Manager H :=
  { m with
    seats := m.seats.set id { seat with session := s }
    globals := m.globals.set seat.globals.place s.scopes.globals
    functions := m.functions.set seat.functions.place s.functions
    serial := s.scopes.serial }

def noSession (id : Handle) : Fault := { cause := .noSession id }

def closeSession (m : Manager H) (id : Handle) : Except Fault Unit × Manager H :=
  match m.seats.remove id with
  | (none, _) => (.error (noSession id), m)
  | (some seat, seats) =>
    (.ok (),
      emit
        { m with
          seats
          globals := m.globals.release seat.globals {}
          functions := m.functions.release seat.functions {} }
        (.closeEngine id))

def request (m : Manager H) (id : Handle) (r : Request) : Except Fault r.Answer × Manager H :=
  match m.seats.get? id with
  | none => (.error (noSession id), m)
  | some seat =>
    let (a, s, events) := (m.restore seat).answer r
    (.ok a, { m.store id seat s with state := m.host.absorb events m.state })

/-- Let a session work through the machine; `none` when it does not end within its steps. -/
def work {z : Machine.Ask} (m : Manager H) (id : Handle)
    (f : Session → Option (Machine.Finished H z)) :
    Option (Except Fault z.Answer × Manager H) :=
  match m.seats.get? id with
  | none => some (.error (noSession id), m)
  | some seat =>
    (f (m.restore seat)).map fun r =>
      (r.answer, { m.store id seat r.session with state := r.state })

def eval (m : Manager H) (fuel : Nat) (id : Handle) (enclosed : Bool) (script : String) :
    Option (Except Fault String × Manager H) :=
  m.work id fun s => s.eval m.host fuel m.state enclosed script

def parse (m : Manager H) (fuel : Nat) (id : Handle) (start : Phase) (flags : Flags) :
    Option (Except Fault Phase × Manager H) :=
  m.work id fun s => s.parse m.host fuel m.state start flags

def invoke (m : Manager H) (fuel : Nat) (id : Handle) (target : Callable) (args : List String) :
    Option (Except Fault Unit × Manager H) :=
  m.work id fun s => s.invoke m.host fuel m.state target args

def evalFile (m : Manager H) (fuel : Nat) (id : Handle) (path : String)
    (contents : Except ReadFailure String) : Option (Except Fault String × Manager H) :=
  match contents with
  | .ok script => m.eval fuel id false script
  | .error reason =>
    let cause := Fault.Cause.unreadable path reason.text
    let (r, m) := m.request id (.setError cause.message)
    some (r.bind fun _ => .error { cause }, m)

/-! Tables -/

def globalPlace (m : Manager H) (id : Handle) : Except Fault Nat :=
  match m.seats.get? id with
  | some seat => .ok seat.globals.place
  | none => .error (noSession id)

def functionPlace (m : Manager H) (id : Handle) : Except Fault Nat :=
  match m.seats.get? id with
  | some seat => .ok seat.functions.place
  | none => .error (noSession id)

def addGlobals (m : Manager H) : Nat × Manager H :=
  let (place, globals) := m.globals.add {}
  (place, { m with globals })

def addFunctions (m : Manager H) : Nat × Manager H :=
  let (place, functions) := m.functions.add {}
  (place, { m with functions })

def globalsAt (m : Manager H) (place : Nat) : Table String := (m.globals.get? place).getD {}

def functionsAt (m : Manager H) (place : Nat) : Table Callable := (m.functions.get? place).getD {}

def setGlobalAt (m : Manager H) (place : Nat) (name value : String) : Manager H :=
  { m with globals := m.globals.set place ((m.globalsAt place).insert name value) }

def defineAt (m : Manager H) (place : Nat) (name : String) (c : Callable) : Manager H :=
  { m with functions := m.functions.set place ((m.functionsAt place).insert name c) }.emit
    (.register name)

def undefineAt (m : Manager H) (place : Nat) (name : String) : Option Callable × Manager H :=
  let table := m.functionsAt place
  (table.get? name, { m with functions := m.functions.set place (table.erase name) })

end Manager

end Scriptlet
