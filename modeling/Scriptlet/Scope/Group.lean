import Scriptlet.Scope
import Scriptlet.Shelf

/-!
Scope stacks that live side by side. They share one counter of block serials, so that a block id
is valid in at most one of them, and they may share global tables.
-/

namespace Scriptlet

/-- A stack of the group without what it shares: the blocks open on it and its global table's
place. -/
structure ScopeGroup.Member where
  globals : Holding
  blocks : List Block := []
  deriving DecidableEq, Repr

structure ScopeGroup where
  serial : UInt32 := 0
  tables : Shelf (Table String) := {}
  members : List ScopeGroup.Member := []
  deriving DecidableEq, Repr

namespace ScopeGroup

def join (g : ScopeGroup) (place : Option Nat) : Nat × Ownership × ScopeGroup :=
  let (holding, tables) := g.tables.hold {} place
  (g.members.length, holding.ownership, { g with tables, members := g.members ++ [⟨holding, []⟩] })

def stack? (g : ScopeGroup) (i : Nat) : Option ScopeStack :=
  g.members[i]?.map fun m =>
    { globals := (g.tables.get? m.globals.place).getD {}, blocks := m.blocks, serial := g.serial }

def store (g : ScopeGroup) (i : Nat) (s : ScopeStack) : ScopeGroup :=
  match g.members[i]? with
  | some m =>
    { serial := s.serial
      tables := g.tables.set m.globals.place s.globals
      members := g.members.set i { m with blocks := s.blocks } }
  | none => g

def release (g : ScopeGroup) (i : Nat) : ScopeGroup :=
  match g.members[i]? with
  | some m =>
    { g with
      tables := g.tables.release m.globals {}
      members := g.members.set i { m with blocks := [] } }
  | none => g

end ScopeGroup

end Scriptlet
