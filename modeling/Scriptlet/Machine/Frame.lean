import Scriptlet.Session

/-!
Frames of the parsing machine. Every construct being read is a frame on a stack; what a frame holds
is the part of the construct that has been read. Values pass between frames through the result of
the session.
-/

namespace Scriptlet

inductive Unary where
  | minus
  | not
  deriving DecidableEq, Repr

/-- Whether newlines end the construct: inside parentheses they never do. The phase in which the
token behind an operand is read. -/
def lookahead (newlineEnds : Bool) : Phase := if newlineEnds then .stmtDone else .expr

namespace Frame

inductive StatementStage where
  | start
  /-- Behind the statement proper, which still wants its terminator or not. -/
  | forward (terminated : Bool)
  deriving DecidableEq, Repr

inductive BranchStage where
  | opening
  | afterCondition
  | afterThen (taken : Bool)
  | seekElse (taken : Bool)
  | afterElse
  deriving DecidableEq, Repr

inductive LoopStage where
  | opening
  | afterInit
  | afterCondition
  | afterIncrementScan
  | afterBody
  | afterIncrement
  | afterLoopCondition
  deriving DecidableEq, Repr

/-- A loop reads its header and body once and keeps checkpoints to replay them from. -/
structure Loop where
  stage : LoopStage := .opening
  running : Bool := false
  conditionAt : Option Input := none
  incrementAt : Option Input := none
  bodyAt : Option Input := none
  endAt : Option Input := none
  deriving DecidableEq, Repr

inductive SimpleStage where
  | start
  | assigning (name : String)
  | valued
  deriving DecidableEq, Repr

inductive CondStage where
  /-- Before the first operand, whose first token may have been read. -/
  | start (seed : Option Token)
  | first
  /-- Behind an operator. A settled left side decides alone, and the right one is only read
  over. -/
  | joining (left : String) (op : Logical) (settled : Bool)
  deriving DecidableEq, Repr

inductive RelStage where
  | start (seed : Option Token)
  | first
  | joining (left : String) (op : Operator)
  deriving DecidableEq, Repr

inductive TermStage where
  | term (seed : Option Token)
  | afterParen
  | afterCall
  deriving DecidableEq, Repr

/-- A chain of terms: the value so far with the operator behind it, and the unary operators in
front of the term being read, the innermost first. -/
structure Terms where
  stage : TermStage
  left : Option (String × Operator) := none
  unary : List Unary := []
  deriving DecidableEq, Repr

inductive CallStage where
  | opening
  /-- Behind the argument list. A call that is executed knows its target and the call that it
  interrupts. -/
  | invoking (target : Option (Callable × Option Call))
  deriving DecidableEq, Repr

end Frame

inductive Frame.Construct where
  | statement (stage : StatementStage)
  | block (scope : Option BlockId)
  | branch (stage : BranchStage)
  | loop (loop : Loop)
  | simple (newlineEnds : Bool) (stage : SimpleStage)
  | declarations (newlineEnds : Bool)
  | declaration (newlineEnds : Bool) (name : String)
  | returning
  | cond (newlineEnds : Bool) (stage : CondStage)
  | rel (newlineEnds : Bool) (stage : RelStage)
  | expr (newlineEnds : Bool) (terms : Terms)
  | call (name : String) (stage : CallStage)
  | arguments
  deriving DecidableEq, Repr

structure Frame where
  flags : Flags
  construct : Frame.Construct
  deriving DecidableEq, Repr

namespace Frame

def name (f : Frame) : String :=
  match f.construct with
  | .statement _ => "stmt"
  | .block _ => "block"
  | .branch _ => "if"
  | .loop _ => "for"
  | .simple _ _ => "simple"
  | .declarations _ => "declist"
  | .declaration _ _ => "dec"
  | .returning => "return"
  | .cond _ _ => "cond"
  | .rel _ _ => "relexp"
  | .expr _ _ => "expr"
  | .call _ _ => "call"
  | .arguments => "arglist"

def newStatement (flags : Flags) : Frame := ⟨flags, .statement .start⟩

def newCond (flags : Flags) (newlineEnds : Bool) (seed : Option Token) : Frame :=
  ⟨flags, .cond newlineEnds (.start seed)⟩

def newRel (flags : Flags) (newlineEnds : Bool) (seed : Option Token) : Frame :=
  ⟨flags, .rel newlineEnds (.start seed)⟩

def newExpr (flags : Flags) (newlineEnds : Bool) (seed : Option Token) : Frame :=
  ⟨flags, .expr newlineEnds { stage := .term seed }⟩

def newSimple (flags : Flags) (newlineEnds : Bool) : Frame := ⟨flags, .simple newlineEnds .start⟩

def start (flags : Flags) : Phase → Except Fault.Cause Frame
  | .stmt => .ok (newStatement flags)
  | .cond => .ok (newCond flags false none)
  | .relExp => .ok (newRel flags false none)
  | .expr => .ok (newExpr flags false none)
  | .argList => .ok ⟨flags, .arguments⟩
  | .decList => .ok ⟨flags, .declarations false⟩
  | .ret => .ok ⟨flags, .returning⟩
  | phase => .error (.cannotStart phase)

end Frame

inductive Move where
  | push (self inner : Frame)
  | stay (self : Frame)
  | done (phase : Phase)
  /-- Call a native function, then finish; `saved` is the call it interrupted. -/
  | invoke (target : Callable) (args : List String) (saved : Option Call)
  deriving DecidableEq, Repr

end Scriptlet
