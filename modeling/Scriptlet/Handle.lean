/-!
Handles and block ids: two 32-bit words that a host may keep as one 64-bit integer. A handle table
stores values in slots. Removing a value advances the generation of its slot, so a handle that
outlives its value no longer resolves, also once the slot is used again.
-/

namespace Scriptlet

def pack (high low : UInt32) : UInt64 := UInt64.ofNat (high.toNat * 0x100000000 + low.toNat)

def highWord (raw : UInt64) : UInt32 := UInt32.ofNat (raw.toNat / 0x100000000)

def lowWord (raw : UInt64) : UInt32 := UInt32.ofNat (raw.toNat % 0x100000000)

theorem toNat_pack (high low : UInt32) :
    (pack high low).toNat = high.toNat * 0x100000000 + low.toNat := by
  have := high.toNat_lt
  have := low.toNat_lt
  simp only [pack, UInt64.toNat_ofNat']
  omega

@[simp] theorem highWord_pack (high low : UInt32) : highWord (pack high low) = high := by
  have := high.toNat_lt
  have := low.toNat_lt
  apply UInt32.toNat.inj
  rw [highWord, toNat_pack, UInt32.toNat_ofNat']
  omega

@[simp] theorem lowWord_pack (high low : UInt32) : lowWord (pack high low) = low := by
  have := low.toNat_lt
  apply UInt32.toNat.inj
  rw [lowWord, toNat_pack, UInt32.toNat_ofNat']
  omega

@[simp] theorem pack_words (raw : UInt64) : pack (highWord raw) (lowWord raw) = raw := by
  have := raw.toNat_lt
  apply UInt64.toNat.inj
  rw [toNat_pack, highWord, lowWord, UInt32.toNat_ofNat', UInt32.toNat_ofNat']
  omega

/-- The low word is a slot index and the high word the generation of that slot. -/
@[ext] structure Handle where
  index : UInt32
  generation : UInt32
  deriving DecidableEq, Repr

namespace Handle

def toRaw (h : Handle) : UInt64 := pack h.generation h.index

def ofRaw (raw : UInt64) : Handle := ⟨lowWord raw, highWord raw⟩

def text (h : Handle) : String := "#" ++ toString h.toRaw.toNat

end Handle

/-- Identifies an open block: how deep it lies, the first block above the global table being 1,
and the serial it was opened with. -/
structure BlockId where
  depth : UInt32
  serial : UInt32
  deriving DecidableEq, Repr

namespace BlockId

def toRaw (b : BlockId) : UInt64 := pack b.serial b.depth

def ofRaw (raw : UInt64) : BlockId := ⟨lowWord raw, highWord raw⟩

def text (b : BlockId) : String := toString b.depth.toNat ++ ":" ++ toString b.serial.toNat

end BlockId

structure Slot (α : Type) where
  generation : UInt32
  value : Option α

structure HandleTable (α : Type) where
  slots : List (Slot α) := []
  /-- Vacant slots, the last one vacated first. -/
  free : List UInt32 := []
  size : Nat := 0

namespace HandleTable

variable {α : Type}

def slot? (t : HandleTable α) (h : Handle) : Option (Slot α) :=
  match t.slots[h.index.toNat]? with
  | some slot => if slot.generation = h.generation then some slot else none
  | none => none

def get? (t : HandleTable α) (h : Handle) : Option α :=
  (t.slot? h).bind (·.value)

def contains (t : HandleTable α) (h : Handle) : Bool := (t.get? h).isSome

/-- Store a value built from the handle it will live under, in the slot vacated last or else in a
new one. -/
def insertWith (t : HandleTable α) (make : Handle → α) : Handle × HandleTable α :=
  match t.free with
  | index :: free =>
    let generation := (t.slots[index.toNat]?.map (·.generation)).getD 1
    let h : Handle := ⟨index, generation⟩
    (h, { slots := t.slots.set index.toNat ⟨generation, some (make h)⟩, free, size := t.size + 1 })
  | [] =>
    let h : Handle := ⟨UInt32.ofNat t.slots.length, 1⟩
    (h, { t with slots := t.slots ++ [⟨1, some (make h)⟩], size := t.size + 1 })

def insert (t : HandleTable α) (a : α) : Handle × HandleTable α := t.insertWith fun _ => a

def set (t : HandleTable α) (h : Handle) (a : α) : HandleTable α :=
  if t.contains h then { t with slots := t.slots.set h.index.toNat ⟨h.generation, some a⟩ } else t

/-- The generation after `g`; zero is left out, so that no handle is the integer zero. -/
def nextGeneration (g : UInt32) : UInt32 := if g + 1 = 0 then 1 else g + 1

/-- Before they wrap around, generations count. -/
theorem toNat_nextGeneration {g : UInt32} (small : g.toNat + 1 < UInt32.size) :
    (nextGeneration g).toNat = g.toNat + 1 := by
  have sum : (g + 1).toNat = g.toNat + 1 := by
    rw [UInt32.toNat_add, UInt32.toNat_one, Nat.mod_eq_of_lt small]
  have pos : g + 1 ≠ 0 := by
    intro zero
    rw [zero] at sum
    cases sum
  rw [nextGeneration, if_neg pos, sum]

def remove (t : HandleTable α) (h : Handle) : Option α × HandleTable α :=
  match t.get? h with
  | none => (none, t)
  | some a =>
    (some a,
      { slots := t.slots.set h.index.toNat ⟨nextGeneration h.generation, none⟩
        free := h.index :: t.free
        size := t.size - 1 })

end HandleTable

end Scriptlet
