import Scriptlet.Machine.Frame
import Scriptlet.Value

/-!
Expressions, in three tiers. A conditional expression joins relational ones with `&&` and `||`, a
relational expression joins arithmetic ones with comparisons, and an arithmetic expression joins
terms. Within a tier operators apply from left to right. A frame that does not execute reads the
same tokens and leaves everything else alone.
-/

namespace Scriptlet.Frame

open Act

def finishTier (flags : Flags) (behind : Token) (value : String) (phase : Phase) : Act Move := do
  unread behind
  if flags.executes then setResult value
  return .done phase

/-! Conditional expressions -/

def condValue : CondStage → Act String
  | .joining left op settled => do
    if settled then return Value.ofBool (Value.truthy left)
    ofExcept (Value.logical op left (← session).result)
  | _ => takeResult

/-- A false left side settles `&&` and a true one `||`. -/
def settles (op : Logical) (left : String) : Bool :=
  match op with
  | .and => !Value.truthy left
  | _ => Value.truthy left

def joinCond (flags : Flags) (nl : Bool) (left : String) (op : Logical) : Move :=
  let settled := flags.executes && settles op left
  .push ⟨flags, .cond nl (.joining left op settled)⟩ (newRel (flags.executeIf !settled) nl none)

def stepCond (flags : Flags) (nl : Bool) : CondStage → Act Move
  | .start seed => return .push ⟨flags, .cond nl .first⟩ (newRel flags nl seed)
  | stage => do
    let value ← if flags.executes then condValue stage else pure ""
    let t ← nextToken (lookahead nl)
    match t.kind with
    | .logical .and => return joinCond flags nl value .and
    | .logical .or => return joinCond flags nl value .or
    | _ => finishTier flags t value .condDone

/-! Relational expressions -/

def relValue : RelStage → Act String
  | .joining left op => do
    let holds ← ofExcept (Value.relate op left (← session).result)
    return Value.ofBool holds
  | _ => takeResult

def stepRel (flags : Flags) (nl : Bool) : RelStage → Act Move
  | .start seed => return .push ⟨flags, .rel nl .first⟩ (newExpr flags nl seed)
  | stage => do
    let value ← if flags.executes then relValue stage else pure ""
    let t ← nextToken (lookahead nl)
    match t.kind with
    | .operator op =>
      if op.isRelational then
        return .push ⟨flags, .rel nl (.joining value op)⟩ (newExpr flags nl none)
      else finishTier flags t value .relExpDone
    | _ => finishTier flags t value .relExpDone

/-! Arithmetic expressions -/

def applyUnary (value : String) : Unary → Except Fault.Cause String
  | .minus => Value.negate value
  | .not => .ok (Value.not value)

def combine (terms : Terms) (term : String) : Except Fault.Cause String := do
  let value ← terms.unary.foldlM applyUnary term
  match terms.left with
  | some (left, op) => Value.arithmetic op left value
  | none => return value

def closeTerm (flags : Flags) (nl : Bool) (terms : Terms) (term : String) : Act Move := do
  let value ← if flags.executes then ofExcept (combine terms term) else pure ""
  let t ← nextToken (lookahead nl)
  match t.kind with
  | .operator op =>
    if op.isArithmetic then
      return .stay ⟨flags, .expr nl { stage := .term none, left := some (value, op) }⟩
    else finishTier flags t value .exprDone
  | _ => finishTier flags t value .exprDone

def innerValue (flags : Flags) : Act String := if flags.executes then takeResult else pure ""

def openTerm (flags : Flags) (nl : Bool) (terms : Terms) (t : Token) : Act Move :=
  let stayWith := fun (u : Unary) =>
    Move.stay ⟨flags, .expr nl { terms with stage := .term none, unary := u :: terms.unary }⟩
  match t.kind with
  | .literal => closeTerm flags nl terms t.text
  | .identifier => do
    let value ← if flags.executes then readVariable t.text else pure ""
    closeTerm flags nl terms value
  | .function =>
    return .push ⟨flags, .expr nl { terms with stage := .afterCall }⟩ ⟨flags, .call t.text .opening⟩
  | .lparen =>
    return .push ⟨flags, .expr nl { terms with stage := .afterParen }⟩ (newCond flags false none)
  | .operator .minus => return stayWith .minus
  | .logical .not => return stayWith .not
  | _ => fail (.unexpected t)

def stepExpr (flags : Flags) (nl : Bool) (terms : Terms) : Act Move :=
  match terms.stage with
  | .term (some t) => openTerm flags nl terms t
  | .term none => do openTerm flags nl terms (← nextToken .expr)
  | .afterParen => do
    expect .expr .rparen
    closeTerm flags nl terms (← innerValue flags)
  | .afterCall => do closeTerm flags nl terms (← innerValue flags)

/-! Calls -/

/-- A call finds its function before any argument is evaluated. -/
def stepCall (flags : Flags) (name : String) : CallStage → Act Move
  | .opening => do
    expect .expr .lparen
    let target ←
      if flags.executes then do
        let s ← session
        match s.functions.get? name with
        | some callable =>
          setSession { s with call := some { name } }
          pure (some (callable, s.call))
        | none => fail (.undefinedFunction name)
      else pure none
    return .push ⟨flags, .call name (.invoking target)⟩ ⟨flags, .arguments⟩
  | .invoking none => return .done .exprDone
  | .invoking (some (callable, saved)) => do
    let s ← session
    let args := (s.call.map (·.args)).getD []
    emit (.call s.id name args.length)
    setResult ""
    return .invoke callable args saved

def addArgument : Act Unit := do
  let value ← takeResult
  update fun s => { s with call := s.call.map fun c => { c with args := c.args ++ [value] } }

def stepArguments (flags : Flags) (inner : Option Phase) : Act Move := do
  let argument := Move.push ⟨flags, .arguments⟩ (newCond flags false none)
  match inner with
  | none =>
    let t ← nextToken .argList
    if t.kind = .rparen then return .done .argListDone
    unread t
    return argument
  | some _ =>
    if flags.executes then addArgument
    let t ← nextToken .argList
    match t.kind with
    | .comma => return argument
    | .rparen => return .done .argListDone
    | _ => fail (.expectedArgumentEnd t)

end Scriptlet.Frame
