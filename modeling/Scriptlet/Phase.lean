/-!
Grammatical phases and the flags that travel with them. A construct is entered in one phase and
reports the phase it finished in. While the execution flag is off a construct is only read over.
-/

namespace Scriptlet

inductive Phase where
  | eof
  | cond | condDone
  | relExp | relExpDone
  | expr | exprDone
  | stmt | stmtDone | stmtBlockDone
  | argList | argListDone
  | decList | decListDone
  | dec | decDone
  | ret
  deriving DecidableEq, Repr

namespace Phase

def name : Phase → String
  | .eof => "Eof"
  | .cond => "Cond"
  | .condDone => "CondDone"
  | .relExp => "RelExp"
  | .relExpDone => "RelExpDone"
  | .expr => "Expr"
  | .exprDone => "ExprDone"
  | .stmt => "Stmt"
  | .stmtDone => "StmtDone"
  | .stmtBlockDone => "StmtBlockDone"
  | .argList => "ArgList"
  | .argListDone => "ArgListDone"
  | .decList => "DecList"
  | .decListDone => "DecListDone"
  | .dec => "Dec"
  | .decDone => "DecDone"
  | .ret => "Ret"

def all : List Phase :=
  [.eof, .cond, .condDone, .relExp, .relExpDone, .expr, .exprDone, .stmt, .stmtDone,
    .stmtBlockDone, .argList, .argListDone, .decList, .decListDone, .dec, .decDone, .ret]

def ofName? (s : String) : Option Phase := all.find? (·.name = s)

/-- Newlines are tokens only where the end of a statement is looked for, and blanks elsewhere. -/
def readsNewlines : Phase → Bool
  | .stmt | .stmtDone => true
  | _ => false

end Phase

/-- Flags of a construct. Only the lowest bit has a meaning: execute. -/
structure Flags where
  bits : UInt8
  deriving DecidableEq, Repr

namespace Flags

def none : Flags := ⟨0⟩

def execute : Flags := ⟨1⟩

instance : OrOp Flags := ⟨fun f g => ⟨f.bits ||| g.bits⟩⟩

instance : AndOp Flags := ⟨fun f g => ⟨f.bits &&& g.bits⟩⟩

instance : Complement Flags := ⟨fun f => ⟨~~~f.bits⟩⟩

def executes (f : Flags) : Bool := f.bits &&& 1 != 0

def scan (f : Flags) : Flags := f &&& ~~~execute

def executeIf (f : Flags) (b : Bool) : Flags := if b then f else f.scan

@[simp] theorem executes_execute : execute.executes = true := rfl

@[simp] theorem executes_none : none.executes = false := rfl

@[simp] theorem executes_scan (f : Flags) : f.scan.executes = false := by
  have clear : f.bits &&& ~~~1 &&& 1 = 0 := by
    rw [UInt8.and_assoc]
    simp
  change (f.bits &&& ~~~1 &&& 1 != 0) = false
  rw [clear]
  rfl

@[simp] theorem executes_executeIf (f : Flags) (b : Bool) :
    (f.executeIf b).executes = (f.executes && b) := by
  cases b <;> simp [executeIf]

end Flags

end Scriptlet
