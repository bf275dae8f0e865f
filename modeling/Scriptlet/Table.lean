/-!
Tables from names to values. A name occurs at most once; writing a name replaces its entry.
-/

namespace Scriptlet

structure Table (α : Type) where
  entries : List (String × α) := []
  deriving DecidableEq, Repr

namespace Table

variable {α : Type}

def empty : Table α := {}

def get? (t : Table α) (name : String) : Option α := t.entries.lookup name

def contains (t : Table α) (name : String) : Bool := (t.get? name).isSome

def erase (t : Table α) (name : String) : Table α := ⟨t.entries.filter (·.1 != name)⟩

def insert (t : Table α) (name : String) (a : α) : Table α :=
  ⟨(name, a) :: (t.erase name).entries⟩

def size (t : Table α) : Nat := t.entries.length

def names (t : Table α) : List String := (t.entries.map (·.1)).mergeSort (· ≤ ·)

@[simp] theorem get?_empty (name : String) : (empty : Table α).get? name = none := rfl

theorem lookup_filter_ne (entries : List (String × α)) (name key : String) :
    (entries.filter (·.1 != name)).lookup key =
      if key = name then none else entries.lookup key := by
  induction entries with
  | nil => simp
  | cons entry rest ih =>
    obtain ⟨k, a⟩ := entry
    rw [List.filter_cons, List.lookup_cons]
    by_cases hk : k = name
    · have drop : (k != name) = false := by simp [hk]
      by_cases h : key = name
      · rw [if_pos h] at ih ⊢
        simp [drop, ih]
      · have other : (key == k) = false := by simp [hk, h]
        simp [drop, ih, h, other]
    · have keep : (k != name) = true := by simp [hk]
      by_cases h : key = k
      · simp [keep, h, hk]
      · have other : (key == k) = false := by simp [h]
        simp [keep, List.lookup_cons, other, ih]

theorem get?_erase (t : Table α) (name key : String) :
    (t.erase name).get? key = if key = name then none else t.get? key :=
  lookup_filter_ne t.entries name key

theorem get?_insert (t : Table α) (name key : String) (a : α) :
    (t.insert name a).get? key = if key = name then some a else t.get? key := by
  have rest := get?_erase t name key
  by_cases h : key = name
  · simp [insert, get?, h]
  · have other : (key == name) = false := by simp [h]
    simp only [get?, h, if_false] at rest
    simp [insert, get?, List.lookup_cons, other, h, rest]

end Table

end Scriptlet
