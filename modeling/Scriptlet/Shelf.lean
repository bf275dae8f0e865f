/-!
Tables that several sessions may share. Each stands in a place of its own on a shelf; a session
holds the place together with the duty to clear it or not.
-/

namespace Scriptlet

/-- Who clears a table: the session that brought it, when it closes, or the host, who keeps it. -/
inductive Ownership where
  | session
  | host
  deriving DecidableEq, Repr

def Ownership.name : Ownership → String
  | .session => "Session"
  | .host => "Host"

structure Holding where
  place : Nat
  ownership : Ownership
  deriving DecidableEq, Repr

structure Shelf (α : Type) where
  tables : List α := []
  deriving DecidableEq, Repr

namespace Shelf

variable {α : Type}

def add (s : Shelf α) (table : α) : Nat × Shelf α := (s.tables.length, ⟨s.tables ++ [table]⟩)

def get? (s : Shelf α) (place : Nat) : Option α := s.tables[place]?

def set (s : Shelf α) (place : Nat) (table : α) : Shelf α := ⟨s.tables.set place table⟩

def hold (s : Shelf α) (table : α) : Option Nat → Holding × Shelf α
  | some place => (⟨place, .host⟩, s)
  | none =>
    let (place, shelf) := s.add table
    (⟨place, .session⟩, shelf)

def release (s : Shelf α) (h : Holding) (empty : α) : Shelf α :=
  match h.ownership with
  | .session => s.set h.place empty
  | .host => s

@[simp] theorem get?_add (s : Shelf α) (table : α) :
    (s.add table).2.get? (s.add table).1 = some table := by
  simp [add, get?]

theorem get?_set_of_ne (s : Shelf α) (table : α) {place other : Nat} (h : other ≠ place) :
    (s.set place table).get? other = s.get? other := by
  simp [set, get?, Ne.symm h]

/-- A table of the host's outlives the session. -/
theorem release_host (s : Shelf α) (place : Nat) (empty : α) :
    s.release ⟨place, .host⟩ empty = s := rfl

end Shelf

end Scriptlet
