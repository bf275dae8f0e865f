import Scriptlet.Machine.Expression

/-!
Statements.
-/

namespace Scriptlet.Frame

open Act

/-- The frame of a statement that starts with a token, and whether it wants a terminator. A token
that belongs to a simple statement is put back for it. -/
def openStatement (flags : Flags) (t : Token) : Act Move :=
  let forward := fun (inner : Construct) (terminated : Bool) =>
    Move.push ⟨flags, .statement (.forward terminated)⟩ ⟨flags, inner⟩
  match t.kind with
  | .newline => return .stay (newStatement flags)
  | .semicolon => return .done .stmtDone
  | .eof => return .done .eof
  | .rbrace => return .done .stmtBlockDone
  | .lbrace => return forward (.block none) false
  | .ifWord => return forward (.branch .opening) false
  | .forWord => return forward (.loop {}) false
  | .varWord => return forward (.declarations true) true
  | .returnWord => return forward .returning true
  | .identifier | .function | .literal | .lparen | .operator .minus | .logical .not => do
    unread t
    return forward (.simple true .start) true
  | _ => fail (.unexpected t)

/-- Take what ends a simple statement. A closing brace, an `else` and the end of the script end it
too but are left for the construct around it. -/
def terminate : Act Move := do
  let t ← nextToken .stmtDone
  match t.kind with
  | .semicolon | .newline => return .done .stmtDone
  | .rbrace | .eof | .elseWord => do
    unread t
    return .done .stmtDone
  | _ => fail (.expected .semicolon t)

def stepStatement (flags : Flags) (stage : StatementStage) (inner : Option Phase) : Act Move :=
  match stage with
  | .start => do openStatement flags (← nextToken .stmt)
  | .forward terminated =>
    if inner = some .ret then return .done .ret
    else if terminated then terminate
    else return .done .stmtDone

/-! Blocks -/

/-- A block opens a scope while it executes and closes it on every way out but a fault. -/
def stepBlock (flags : Flags) (scope : Option BlockId) (inner : Option Phase) : Act Move := do
  let leave := fun (phase : Phase) => do
    if let some id := scope then closeBlock id
    return Move.done phase
  match inner with
  | none =>
    if flags.executes then
      let id ← openBlock
      emit (.enterBlock id)
      return .push ⟨flags, .block (some id)⟩ (newStatement flags)
    return .push ⟨flags, .block none⟩ (newStatement flags)
  | some .stmtDone => return .push ⟨flags, .block scope⟩ (newStatement flags)
  | some .stmtBlockDone => leave .stmtBlockDone
  | some .ret => leave .ret
  | some _ => fail .unclosedBlock

/-! Branches -/

def bodyReturns (clause : Fault.Clause) : Option Phase → Act Bool
  | some .ret => return true
  | some .eof | some .stmtBlockDone | none => fail (.missingBody clause)
  | some _ => return false

def stepBranch (flags : Flags) (stage : BranchStage) (inner : Option Phase) : Act Move :=
  match stage with
  | .opening => do
    expect .expr .lparen
    return .push ⟨flags, .branch .afterCondition⟩ (newCond flags false none)
  | .afterCondition => do
    let taken := flags.executes && Value.truthy (← session).result
    expect .expr .rparen
    return .push ⟨flags, .branch (.afterThen taken)⟩ (newStatement (flags.executeIf taken))
  | .afterThen taken => do
    if ← bodyReturns .ifClause inner then return .done .ret
    return .stay ⟨flags, .branch (.seekElse taken)⟩
  | .seekElse taken => do
    let t ← nextToken .stmt
    match t.kind with
    | .newline => return .stay ⟨flags, .branch (.seekElse taken)⟩
    | .elseWord =>
      return .push ⟨flags, .branch .afterElse⟩ (newStatement (flags.executeIf !taken))
    | _ =>
      unread t
      return .done .stmtDone
  | .afterElse => do
    if ← bodyReturns .elseClause inner then return .done .ret
    return .done .stmtDone

/-! Loops -/

def startBody (flags : Flags) (l : Loop) : Act Move := do
  let l := { l with bodyAt := some (← session).input, stage := .afterBody }
  return .push ⟨flags, .loop l⟩ (newStatement (flags.executeIf l.running))

def startIncrement (flags : Flags) (l : Loop) : Act Move := do
  let checkpoint := (← session).input
  let t ← nextToken .expr
  if t.kind = .rparen then startBody flags l
  else
    unread t
    let l := { l with incrementAt := some checkpoint, stage := .afterIncrementScan }
    return .push ⟨flags, .loop l⟩ (newSimple flags.scan false)

def startCondition (flags : Flags) (l : Loop) : Act Move := do
  let checkpoint := (← session).input
  let t ← nextToken .expr
  if t.kind = .semicolon then startIncrement flags { l with running := flags.executes }
  else
    unread t
    let l := { l with conditionAt := some checkpoint, stage := .afterCondition }
    return .push ⟨flags, .loop l⟩ (newCond flags false none)

def resume (checkpoint : Option Input) : Act Unit :=
  match checkpoint with
  | some input => update fun s => { s with input }
  | none => pure ()

def repeatBody (flags : Flags) (l : Loop) : Act Move := do
  resume l.bodyAt
  return .push ⟨flags, .loop { l with stage := .afterBody }⟩ (newStatement flags)

def checkCondition (flags : Flags) (l : Loop) : Act Move :=
  if l.conditionAt.isSome then do
    resume l.conditionAt
    return .push ⟨flags, .loop { l with stage := .afterLoopCondition }⟩ (newCond flags false none)
  else repeatBody flags l

def leaveLoop (l : Loop) : Act Move := do
  resume l.endAt
  return .done .stmtDone

def afterBody (flags : Flags) (l : Loop) : Act Move := do
  let l := { l with endAt := l.endAt.or (some (← session).input) }
  if !l.running then leaveLoop l
  else if l.incrementAt.isSome then
    resume l.incrementAt
    return .push ⟨flags, .loop { l with stage := .afterIncrement }⟩ (newSimple flags false)
  else checkCondition flags l

def stepLoop (flags : Flags) (l : Loop) (inner : Option Phase) : Act Move :=
  match l.stage with
  | .opening => do
    expect .expr .lparen
    let t ← nextToken .expr
    match t.kind with
    | .semicolon => startCondition flags l
    | .varWord =>
      return .push ⟨flags, .loop { l with stage := .afterInit }⟩ ⟨flags, .declarations false⟩
    | _ =>
      unread t
      return .push ⟨flags, .loop { l with stage := .afterInit }⟩ (newSimple flags false)
  | .afterInit => do
    expect .expr .semicolon
    startCondition flags l
  | .afterCondition => do
    let running := flags.executes && Value.truthy (← session).result
    expect .expr .semicolon
    startIncrement flags { l with running }
  | .afterIncrementScan => do
    expect .expr .rparen
    startBody flags l
  | .afterBody => do
    if ← bodyReturns .forClause inner then return .done .ret
    afterBody flags l
  | .afterIncrement => checkCondition flags l
  | .afterLoopCondition => do
    if Value.truthy (← session).result then repeatBody flags { l with running := true }
    else leaveLoop l

/-! Simple statements -/

def bumpVariable (op : Operator) (name : String) : Act Unit := do
  let value ← ofExcept (Value.bump op (← readVariable name))
  update fun s => { s.assign name value with result := value }

/-- An assignment, `x++`, `x--` or an expression. A name that starts an expression is handed on
with it, since only one token can be put back. -/
def stepSimple (flags : Flags) (nl : Bool) : SimpleStage → Act Move
  | .start => do
    let t ← nextToken .expr
    if t.kind ≠ .identifier then
      unread t
      return .push ⟨flags, .simple nl .valued⟩ (newCond flags nl none)
    let behind ← nextToken (lookahead nl)
    match behind.kind with
    | .assign =>
      return .push ⟨flags, .simple nl (.assigning t.text)⟩ (newCond flags nl none)
    | .bump op =>
      if flags.executes then bumpVariable op t.text
      return .done .exprDone
    | _ =>
      unread behind
      return .push ⟨flags, .simple nl .valued⟩ (newCond flags nl (some t))
  | .assigning name => do
    if flags.executes then update fun s => s.assign name s.result
    return .done .exprDone
  | .valued => return .done .exprDone

/-! Declarations -/

def stepDeclarations (flags : Flags) (nl : Bool) (inner : Option Phase) : Act Move := do
  let declare := do
    let t ← nextToken .decList
    if t.kind ≠ .identifier then fail (.expectedName t)
    return Move.push ⟨flags, .declarations nl⟩ ⟨flags, .declaration nl t.text⟩
  match inner with
  | none => declare
  | some _ =>
    let t ← nextToken (lookahead nl)
    if t.kind = .comma then declare
    else
      unread t
      return .done .decListDone

def stepDeclaration (flags : Flags) (nl : Bool) (name : String) (inner : Option Phase) :
    Act Move := do
  let bindTo := fun (value : String) => do
    if flags.executes then update (·.setLocal name value)
    return Move.done .decDone
  match inner with
  | none =>
    let t ← nextToken (lookahead nl)
    if t.kind = .assign then
      return .push ⟨flags, .declaration nl name⟩ (newCond flags nl none)
    unread t
    bindTo ""
  | some _ => bindTo (← session).result

/-! Return -/

def stepReturning (flags : Flags) (inner : Option Phase) : Act Move := do
  let finish : Move := .done (if flags.executes then .ret else .stmtDone)
  match inner with
  | some _ => return finish
  | none =>
    let t ← nextToken .stmtDone
    unread t
    match t.kind with
    | .semicolon | .newline | .rbrace | .eof =>
      if flags.executes then setResult ""
      return finish
    | _ => return .push ⟨flags, .returning⟩ (newCond flags true none)

end Scriptlet.Frame

namespace Scriptlet

/-- Let a frame act. `inner` is the phase that the frame it waited for finished in. -/
def Frame.step (f : Frame) (inner : Option Phase) : Act Move :=
  match f.construct with
  | .statement stage => stepStatement f.flags stage inner
  | .block scope => stepBlock f.flags scope inner
  | .branch stage => stepBranch f.flags stage inner
  | .loop l => stepLoop f.flags l inner
  | .simple nl stage => stepSimple f.flags nl stage
  | .declarations nl => stepDeclarations f.flags nl inner
  | .declaration nl name => stepDeclaration f.flags nl name inner
  | .returning => stepReturning f.flags inner
  | .cond nl stage => stepCond f.flags nl stage
  | .rel nl stage => stepRel f.flags nl stage
  | .expr nl terms => stepExpr f.flags nl terms
  | .call name stage => stepCall f.flags name stage
  | .arguments => stepArguments f.flags inner

end Scriptlet
