import Scriptlet.Table
import Scriptlet.Fault

/-!
Variables in nested blocks. Above the global table lie the tables of the open blocks; a name means
its binding in the innermost table that has one.
-/

namespace Scriptlet

structure Block where
  serial : UInt32
  bindings : Table String := {}
  deriving DecidableEq, Repr

structure ScopeStack where
  globals : Table String := {}
  /-- Open blocks, the innermost first. -/
  blocks : List Block := []
  /-- The serial given to the last block that was opened. Stacks that hand the counter on to each
  other never open two blocks with the same id. -/
  serial : UInt32 := 0
  deriving DecidableEq, Repr

namespace ScopeStack

def depth (s : ScopeStack) : Nat := s.blocks.length

/-- Serials wrap around but leave out zero. -/
def nextSerial (serial : UInt32) : UInt32 := if serial + 1 = 0 then 1 else serial + 1

/-- Before they wrap around, serials count. -/
theorem toNat_nextSerial {serial : UInt32} (small : serial.toNat + 1 < UInt32.size) :
    (nextSerial serial).toNat = serial.toNat + 1 :=
  HandleTable.toNat_nextGeneration small

def openBlock (s : ScopeStack) : BlockId × ScopeStack :=
  let serial := nextSerial s.serial
  let blocks := ⟨serial, {}⟩ :: s.blocks
  (⟨UInt32.ofNat blocks.length, serial⟩, { s with blocks, serial })

def blockAt? (s : ScopeStack) (depth : Nat) : Option Block :=
  if depth = 0 then none else s.blocks.reverse[depth - 1]?

def isOpen (s : ScopeStack) (id : BlockId) : Bool :=
  match s.blockAt? id.depth.toNat with
  | some block => block.serial == id.serial
  | none => false

def refusal (s : ScopeStack) (id : BlockId) : Fault.Cause :=
  if s.isOpen id then .blockNotInnermost id else .blockNotOpen id

def close (s : ScopeStack) (id : BlockId) : Except Fault.Cause ScopeStack :=
  match s.blocks with
  | top :: outer =>
    if top.serial = id.serial ∧ s.depth = id.depth.toNat then .ok { s with blocks := outer }
    else .error (s.refusal id)
  | [] => .error (s.refusal id)

def truncate (s : ScopeStack) (depth : Nat) : ScopeStack :=
  { s with blocks := s.blocks.drop (s.blocks.length - depth) }

def get? (s : ScopeStack) (name : String) : Option String :=
  (s.blocks.findSome? (·.bindings.get? name)).or (s.globals.get? name)

def setGlobal (s : ScopeStack) (name value : String) : ScopeStack :=
  { s with globals := s.globals.insert name value }

def setLocal (s : ScopeStack) (name value : String) : ScopeStack :=
  match s.blocks with
  | top :: outer =>
    { s with blocks := { top with bindings := top.bindings.insert name value } :: outer }
  | [] => s.setGlobal name value

def assignIn (name value : String) : List Block → Option (List Block)
  | [] => none
  | block :: outer =>
    if block.bindings.contains name then
      some ({ block with bindings := block.bindings.insert name value } :: outer)
    else (assignIn name value outer).map (block :: ·)

/-- Update the nearest binding of a name. A name bound nowhere becomes global. -/
def assign (s : ScopeStack) (name value : String) : ScopeStack :=
  match assignIn name value s.blocks with
  | some blocks => { s with blocks }
  | none => s.setGlobal name value

/-! ### What each operation does to the meaning of names -/

@[simp] theorem depth_openBlock (s : ScopeStack) : s.openBlock.2.depth = s.depth + 1 := rfl

/-- A block opens empty, so names keep their meaning. -/
@[simp] theorem get?_openBlock (s : ScopeStack) (name : String) :
    s.openBlock.2.get? name = s.get? name := rfl

theorem get?_setLocal (s : ScopeStack) (name key value : String) :
    (s.setLocal name value).get? key = if key = name then some value else s.get? key := by
  cases h : s.blocks with
  | nil => simp [setLocal, setGlobal, get?, h, Table.get?_insert]
  | cons top outer =>
    by_cases hk : key = name
    · simp [setLocal, get?, h, Table.get?_insert, hk]
    · simp [setLocal, get?, h, List.findSome?_cons, Table.get?_insert, hk]

/-- A block hides what is bound globally under the names it binds. -/
theorem get?_setGlobal (s : ScopeStack) (name key value : String) :
    (s.setGlobal name value).get? key =
      (s.blocks.findSome? (·.bindings.get? key)).or
        (if key = name then some value else s.globals.get? key) := by
  simp [setGlobal, get?, Table.get?_insert]

@[simp] theorem depth_truncate (s : ScopeStack) (depth : Nat) :
    (s.truncate depth).depth = min depth s.depth := by
  simp only [truncate, ScopeStack.depth, List.length_drop]
  omega

/-- The blocks that stay are the outer ones, with their tables as they were. -/
theorem truncate_openBlock (s : ScopeStack) :
    (s.openBlock.2.truncate s.depth).blocks = s.blocks := by
  have one : s.blocks.length + 1 - s.blocks.length = 1 := by omega
  simp [openBlock, truncate, depth, one]

end ScopeStack

end Scriptlet
