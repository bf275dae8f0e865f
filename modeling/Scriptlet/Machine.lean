import Scriptlet.Machine.Statement
import Scriptlet.Native

/-!
The machine that parses and evaluates. It takes one small step at a time: a frame acts, a native
program makes its next move, or an answer is handed to whatever waits for it. Parses, evaluations
and native calls nest to any depth in the chain of waiting activities, so no step ever runs another
one inside it.
-/

namespace Scriptlet

namespace Machine

inductive Ask where
  | unit
  | phase
  | text
  deriving DecidableEq, Repr

@[reducible] def Ask.Answer : Ask → Type
  | .unit => Unit
  | .phase => Phase
  | .text => String

/-- A chain of activities. The outermost one answers `z`, and the innermost one waits for an
answer to `a`. -/
inductive Waiting (H : Type) (z : Ask) : (a : Ask) → Type where
  | idle : Waiting H z z
  /-- A parse that waits for a native function it called. `base` is the depth the parse started
  at, and `saved` the call that this one interrupted. -/
  | call (base : Nat) (saved : Option Call) (below : List Frame) (outer : Waiting H z .phase) :
      Waiting H z .unit
  | script (input : Input) (call : Option Call) (blocks : Nat) (outer : Waiting H z .text) :
      Waiting H z .phase
  | enclosed (blocks : Nat) (outer : Waiting H z .text) : Waiting H z .text
  | afterEval (next : Except Fault String → Program H Unit) (outer : Waiting H z .unit) :
      Waiting H z .text
  | afterParse (next : Except Fault Phase → Program H Unit) (outer : Waiting H z .unit) :
      Waiting H z .phase

inductive Control (H : Type) (z : Ask) where
  /-- The frame on top acts; `inner` is the phase in which a frame above it has finished. -/
  | drive (base : Nat) (top : Frame) (below : List Frame) (inner : Option Phase)
      (outer : Waiting H z .phase)
  | program (p : Program H Unit) (outer : Waiting H z .unit)
  | deliver (a : Ask) (answer : Except Fault a.Answer) (outer : Waiting H z a)

structure Config (H : Type) (z : Ask) where
  session : Session
  state : H
  control : Control H z

structure Finished (H : Type) (z : Ask) where
  answer : Except Fault z.Answer
  session : Session
  state : H

variable {H : Type} {z : Ask}

/-- End a parse. The depth returns to what it was, and a fault gets the line reached unless it has
one. -/
def endParse (s : Session) (base : Nat) (r : Except Fault Phase) (outer : Waiting H z .phase) :
    Session × Control H z :=
  ({ s with depth := base }, .deliver .phase (r.mapError (·.orLine s.line)) outer)

def beginParse (s : Session) (start : Phase) (flags : Flags) (outer : Waiting H z .phase) :
    Session × Control H z :=
  if s.limits.maxDepth ≤ s.depth then
    endParse s s.depth (.error { cause := .recursionLimit }) outer
  else
    match Frame.start flags start with
    | .ok frame => ({ s with depth := s.depth + 1 }, .drive s.depth frame [] none outer)
    | .error cause => endParse s s.depth (.error { cause }) outer

def beginEval (s : Session) (script : String) (outer : Waiting H z .text) :
    Session × Control H z :=
  beginParse
    { s with input := .ofScript script, call := none, result := "", report := none }
    .stmt .execute (.script s.input s.call s.scopes.depth outer)

def startEval (s : Session) (enclosed : Bool) (script : String) (outer : Waiting H z .text) :
    Session × List Event × Control H z :=
  let entry := Event.eval s.id script.utf8ByteSize
  if enclosed then
    let (id, scopes) := s.scopes.openBlock
    let (s', control) := beginEval { s with scopes } script (.enclosed s.scopes.depth outer)
    (s', [entry, .openBlock s.id id], control)
  else
    let (s', control) := beginEval s script outer
    (s', [entry], control)

def finishFrame (s : Session) (base : Nat) (frame : String) (below : List Frame) (phase : Phase)
    (outer : Waiting H z .phase) : Session × List Event × Control H z :=
  let s := { s with depth := s.depth - 1 }
  match below with
  | [] =>
    let (s, control) := endParse s base (.ok phase) outer
    (s, [.done frame phase], control)
  | next :: rest => (s, [.done frame phase], .drive base next rest (some phase) outer)

def pushFrame (s : Session) (base : Nat) (self inner : Frame) (below : List Frame)
    (outer : Waiting H z .phase) : Session × List Event × Control H z :=
  if s.limits.maxDepth ≤ s.depth then
    let (s, control) := endParse s base (.error { cause := .recursionLimit }) outer
    (s, [], control)
  else
    let depth := s.depth + 1
    ({ s with depth }, [.push self.name inner.name depth],
      .drive base inner (self :: below) none outer)

def driveStep (host : Host H) (s : Session) (base : Nat) (top : Frame) (below : List Frame)
    (inner : Option Phase) (outer : Waiting H z .phase) : Session × List Event × Control H z :=
  let (move, scene) := (top.step inner).run.run { session := s }
  let s := scene.session
  match move with
  | .error fault =>
    let (s, control) := endParse s base (.error fault) outer
    (s, scene.journal, control)
  | .ok (.stay self) => (s, scene.journal, .drive base self below none outer)
  | .ok (.push self inner) =>
    let (s, events, control) := pushFrame s base self inner below outer
    (s, events ++ scene.journal, control)
  | .ok (.done phase) =>
    let (s, events, control) := finishFrame s base top.name below phase outer
    (s, events ++ scene.journal, control)
  | .ok (.invoke target args saved) =>
    (s, scene.journal,
      .program (host.natives target.key args) (.call base saved below outer))

def endEval (s : Session) (input : Input) (call : Option Call) (r : Except Fault String)
    (outer : Waiting H z .text) : Session × Control H z :=
  ({ s with input, call }, .deliver .text r outer)

/-- End an evaluation with a fault: the blocks it left open are closed and the fault is recorded. -/
def failEval (s : Session) (input : Input) (call : Option Call) (blocks : Nat) (fault : Fault)
    (outer : Waiting H z .text) : Session × List Event × Control H z :=
  let s := ({ s with scopes := s.scopes.truncate blocks }).recordFault fault
  let (s, control) := endEval s input call (.error fault) outer
  (s, [.evalFailed s.id fault], control)

def scriptStep (s : Session) (input : Input) (call : Option Call) (blocks : Nat)
    (r : Except Fault Phase) (outer : Waiting H z .text) : Session × List Event × Control H z :=
  match r with
  | .ok .stmtDone =>
    let (s, control) := beginParse s .stmt .execute (.script input call blocks outer)
    (s, [], control)
  | .ok .eof | .ok .ret =>
    let (s', control) := endEval s input call (.ok s.result) outer
    (s', [], control)
  | .ok .stmtBlockDone =>
    failEval s input call blocks { cause := .unexpected (.symbol .rbrace), line := s.line } outer
  | .ok phase =>
    failEval s input call blocks { cause := .unexpectedPhase phase, line := s.line } outer
  | .error fault => failEval s input call blocks fault outer

def programStep (s : Session) (state : H) (outer : Waiting H z .unit) :
    Program H Unit → Session × H × List Event × Control H z
  | .done () => (s, state, [], .deliver .unit (.ok ()) outer)
  | .raise fault => (s, state, [], .deliver .unit (.error fault) outer)
  | .request r next =>
    let (a, s, events) := s.answer r
    (s, state, events, .program (next a) outer)
  | .readHost next => (s, state, [], .program (next state) outer)
  | .writeHost state next => (s, state, [], .program next outer)
  | .eval enclosed script next =>
    let (s, events, control) := startEval s enclosed script (.afterEval next outer)
    (s, state, events, control)
  | .parse start flags next =>
    let (s, control) := beginParse s start flags (.afterParse next outer)
    (s, state, [], control)

def deliverStep (s : Session) {a : Ask} (answer : Except Fault a.Answer) (outer : Waiting H z a) :
    Except Fault z.Answer ⊕ (Session × List Event × Control H z) :=
  match outer with
  | .idle => .inl answer
  | .call base saved below outer =>
    let s := { s with call := saved }
    match answer with
    | .ok _ => .inr (finishFrame s base "call" below .exprDone outer)
    | .error fault =>
      let (s, control) := endParse s base (.error fault) outer
      .inr (s, [], control)
  | .script input call blocks outer => .inr (scriptStep s input call blocks answer outer)
  | .enclosed blocks outer =>
    .inr ({ s with scopes := s.scopes.truncate blocks }, [], .deliver .text answer outer)
  | .afterEval next outer => .inr (s, [], .program (next answer) outer)
  | .afterParse next outer => .inr (s, [], .program (next answer) outer)

def step (host : Host H) (c : Config H z) : Finished H z ⊕ Config H z :=
  match c.control with
  | .drive base top below inner outer =>
    let (session, events, control) := driveStep host c.session base top below inner outer
    .inr ⟨session, host.absorb events c.state, control⟩
  | .program p outer =>
    let (session, state, events, control) := programStep c.session c.state outer p
    .inr ⟨session, host.absorb events state, control⟩
  | .deliver _ answer outer =>
    match deliverStep c.session answer outer with
    | .inl answer => .inl ⟨answer, c.session, c.state⟩
    | .inr (session, events, control) => .inr ⟨session, host.absorb events c.state, control⟩

/-- Run for at most a number of steps. A script may run for ever, so the number cannot be computed
from it. -/
def run (host : Host H) : Nat → Config H z → Option (Finished H z)
  | 0, _ => none
  | fuel + 1, c =>
    match step host c with
    | .inl finished => some finished
    | .inr c => run host fuel c

end Machine

namespace Session

open Machine

variable {H : Type}

def eval (host : Host H) (fuel : Nat) (s : Session) (state : H) (enclosed : Bool)
    (script : String) : Option (Finished H .text) :=
  let (session, events, control) := startEval s enclosed script .idle
  run host fuel ⟨session, host.absorb events state, control⟩

def parse (host : Host H) (fuel : Nat) (s : Session) (state : H) (start : Phase) (flags : Flags) :
    Option (Finished H .phase) :=
  let (session, control) := beginParse s start flags .idle
  run host fuel ⟨session, state, control⟩

def invoke (host : Host H) (fuel : Nat) (s : Session) (state : H) (target : Callable)
    (args : List String) : Option (Finished H .unit) :=
  run host fuel ⟨s, state, .program (host.natives target.key args) .idle⟩

end Session

end Scriptlet
