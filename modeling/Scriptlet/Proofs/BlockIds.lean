import Mathlib.Algebra.Group.Nat.Defs
import Mathlib.Data.List.Nodup
import Scriptlet.Scope.Group

/-!
Block ids tell blocks apart. An id is a depth and a serial; depths are used again all the time, and
serials come from one counter for all the stacks of a group. The history of a group says which
blocks stand on which stack, and an id is open exactly where the block it was given to stands.
-/

namespace Scriptlet

namespace ScopeStack

theorem isOpen_nil {s : ScopeStack} (empty : s.blocks = []) (id : BlockId) :
    s.isOpen id = false := by
  simp [isOpen, blockAt?, empty]

/-- An open id is that of the innermost block or of one around it. -/
theorem isOpen_cons {s : ScopeStack} {top : Block} {outer : List Block}
    (blocks : s.blocks = top :: outer) (id : BlockId) :
    s.isOpen id ↔ (id.depth.toNat = outer.length + 1 ∧ id.serial = top.serial) ∨
      ({ s with blocks := outer } : ScopeStack).isOpen id := by
  simp only [isOpen, blockAt?, blocks, List.reverse_cons]
  by_cases zero : id.depth.toNat = 0
  · simp [zero]
  · rw [if_neg zero, if_neg zero]
    rcases Nat.lt_trichotomy id.depth.toNat (outer.length + 1) with below | level | above
    · rw [List.getElem?_append_left (by simp; omega)]
      have other : id.depth.toNat ≠ outer.length + 1 := by omega
      simp [other]
    · have last : id.depth.toNat - 1 = outer.reverse.length := by simp; omega
      rw [last, List.getElem?_concat_length, List.getElem?_eq_none (Nat.le_refl _)]
      simp only [level, true_and, Bool.false_eq_true, or_false, beq_iff_eq]
      exact eq_comm
    · have other : id.depth.toNat ≠ outer.length + 1 := by omega
      rw [List.getElem?_eq_none (by simp; omega), List.getElem?_eq_none (by simp; omega)]
      simp [other]

theorem depth_of_isOpen {s : ScopeStack} {id : BlockId} (h : s.isOpen id) :
    0 < id.depth.toNat ∧ id.depth.toNat ≤ s.depth := by
  unfold isOpen at h
  split at h
  · rename_i block found
    unfold blockAt? at found
    split at found
    · cases found
    · have inside := (List.getElem?_eq_some_iff.mp found).1
      rw [List.length_reverse] at inside
      simp only [depth]
      omega
  · cases h

/-- The block opened is open, and those that were. -/
theorem isOpen_openBlock (s : ScopeStack) (room : s.depth + 1 < 2 ^ 32) (id : BlockId) :
    s.openBlock.2.isOpen id ↔ id = s.openBlock.1 ∨ s.isOpen id := by
  have number : (UInt32.ofNat (s.blocks.length + 1)).toNat = s.blocks.length + 1 := by
    rw [UInt32.toNat_ofNat']
    exact Nat.mod_eq_of_lt room
  rw [isOpen_cons rfl]
  apply or_congr_left
  obtain ⟨depth, serial⟩ := id
  simp only [openBlock, List.length_cons, BlockId.mk.injEq, ← UInt32.toNat_inj, number]

/-- Closing takes exactly the innermost block away. -/
theorem close_eq_ok {s s' : ScopeStack} {id : BlockId} :
    s.close id = .ok s' ↔ ∃ top outer, s.blocks = top :: outer ∧ top.serial = id.serial ∧
      outer.length + 1 = id.depth.toNat ∧ s' = { s with blocks := outer } := by
  unfold close
  cases hblocks : s.blocks with
  | nil => simp
  | cons top outer =>
    simp only [depth, hblocks, List.length_cons]
    split
    · rename_i both
      simp [both.1, both.2, eq_comm]
    · rename_i neither
      constructor
      · simp
      · rintro ⟨top', outer', same, serial, number, -⟩
        obtain ⟨rfl, rfl⟩ := List.cons.inj same
        exact absurd ⟨serial, number⟩ neither

theorem isOpen_close {s s' : ScopeStack} {id : BlockId} (closed : s.close id = .ok s')
    (other : BlockId) : s'.isOpen other ↔ other ≠ id ∧ s.isOpen other := by
  obtain ⟨top, outer, blocks, serial, number, rfl⟩ := close_eq_ok.mp closed
  have self : other = id ↔ other.depth.toNat = outer.length + 1 ∧ other.serial = top.serial := by
    obtain ⟨depth, serial'⟩ := id
    obtain ⟨depth', serial''⟩ := other
    simp only at serial number
    simp [← UInt32.toNat_inj, number, serial]
  rw [isOpen_cons blocks, ← self]
  constructor
  · intro h
    refine ⟨?_, .inr h⟩
    rintro rfl
    have low := (depth_of_isOpen h).2
    simp only [depth] at low
    omega
  · rintro ⟨ne, same | h⟩
    · exact absurd same ne
    · exact h

theorem isOpen_truncate (s : ScopeStack) (depth : Nat) (id : BlockId) :
    (s.truncate depth).isOpen id ↔ ¬ depth < id.depth.toNat ∧ s.isOpen id := by
  simp only [isOpen, blockAt?, truncate, List.reverse_drop]
  by_cases zero : id.depth.toNat = 0
  · simp [zero]
  · simp only [if_neg zero]
    by_cases above : depth < id.depth.toNat
    · rw [List.getElem?_eq_none (by simp; omega)]
      simp [above]
    · by_cases inside : id.depth.toNat ≤ s.blocks.length
      · rw [List.getElem?_take_of_lt (by omega)]
        simp [above]
      · rw [List.getElem?_eq_none (by simp; omega), List.getElem?_eq_none (by simp; omega)]
        simp

/-- The innermost open block is the deepest one. -/
theorem close_iff_deepest (s : ScopeStack) (few : s.depth < 2 ^ 32) (id : BlockId) :
    (∃ s', s.close id = .ok s') ↔
      s.isOpen id ∧ ∀ other, s.isOpen other → other.depth.toNat ≤ id.depth.toNat := by
  constructor
  · rintro ⟨s', closed⟩
    obtain ⟨top, outer, blocks, serial, number, rfl⟩ := close_eq_ok.mp closed
    refine ⟨(isOpen_cons blocks id).mpr (.inl ⟨number.symm, serial.symm⟩), fun other h => ?_⟩
    have low := (depth_of_isOpen h).2
    simp only [depth, blocks, List.length_cons] at low
    omega
  · rintro ⟨isOpen, deepest⟩
    cases blocks : s.blocks with
    | nil => simp [isOpen_nil blocks] at isOpen
    | cons top outer =>
      have length : outer.length + 1 < 2 ^ 32 := by simpa [depth, blocks] using few
      have number : (UInt32.ofNat (outer.length + 1)).toNat = outer.length + 1 := by
        rw [UInt32.toNat_ofNat', Nat.mod_eq_of_lt length]
      have reach := deepest ⟨UInt32.ofNat (outer.length + 1), top.serial⟩
        ((isOpen_cons blocks _).mpr (.inl ⟨number, rfl⟩))
      rw [number] at reach
      refine ⟨{ s with blocks := outer }, close_eq_ok.mpr ⟨top, outer, blocks, ?_⟩⟩
      rcases (isOpen_cons blocks id).mp isOpen with ⟨level, serial⟩ | outside
      · exact ⟨serial.symm, level.symm, rfl⟩
      · have low := (depth_of_isOpen outside).2
        simp only [depth] at low
        omega

end ScopeStack

namespace ScopeGroup

inductive Operation where
  | join (place : Option Nat)
  | openBlock (i : Nat)
  | close (i : Nat) (id : BlockId)
  | truncate (i depth : Nat)
  | release (i : Nat)
  deriving DecidableEq, Repr

inductive Answer where
  | opened (id : BlockId)
  | done
  | refused (cause : Fault.Cause)
  | absent
  deriving DecidableEq, Repr

def perform (g : ScopeGroup) : Operation → Answer × ScopeGroup
  | .join place => (.done, (g.join place).2.2)
  | .openBlock i =>
    match g.stack? i with
    | some s => (.opened s.openBlock.1, g.store i s.openBlock.2)
    | none => (.absent, g)
  | .close i id =>
    match g.stack? i with
    | some s =>
      match s.close id with
      | .ok s => (.done, g.store i s)
      | .error cause => (.refused cause, g)
    | none => (.absent, g)
  | .truncate i depth =>
    match g.stack? i with
    | some s => (.done, g.store i (s.truncate depth))
    | none => (.absent, g)
  | .release i => (.done, g.release i)

/-- What was done to the stacks of a group and what was answered, the latest first. -/
abbrev History := List (Operation × Answer)

def run : List Operation → History × ScopeGroup
  | [] => ([], {})
  | op :: earlier =>
    let (log, g) := run earlier
    ((op, (g.perform op).1) :: log, (g.perform op).2)

/-! ### What the history tells -/

def opening? : Operation × Answer → Option BlockId
  | (_, .opened id) => some id
  | _ => none

def opened (log : History) : List BlockId := log.filterMap opening?

/-- The id was given to a block of the stack, which has not been closed, truncated or released
since. -/
def Stands : History → Nat → BlockId → Prop
  | [], _, _ => False
  | (.openBlock j, .opened k) :: log, i, id => (j = i ∧ k = id) ∨ Stands log i id
  | (.close j k, .done) :: log, i, id => ¬ (j = i ∧ k = id) ∧ Stands log i id
  | (.truncate j depth, _) :: log, i, id => ¬ (j = i ∧ depth < id.depth.toNat) ∧ Stands log i id
  | (.release j, _) :: log, i, id => j ≠ i ∧ Stands log i id
  | _ :: log, i, id => Stands log i id

def Innermost (log : History) (i : Nat) (id : BlockId) : Prop :=
  Stands log i id ∧ ∀ other, Stands log i other → other.depth.toNat ≤ id.depth.toNat

def isOpen (g : ScopeGroup) (i : Nat) (id : BlockId) : Bool := (g.stack? i).any (·.isOpen id)

/-! ### Stacks beside each other -/

theorem stack?_eq_some {g : ScopeGroup} {i : Nat} {s : ScopeStack} (h : g.stack? i = some s) :
    ∃ m, g.members[i]? = some m ∧ s.blocks = m.blocks ∧ s.serial = g.serial ∧
      s.globals = (g.tables.get? m.globals.place).getD {} := by
  obtain ⟨m, hm, rfl⟩ := Option.map_eq_some_iff.mp h
  exact ⟨m, hm, rfl, rfl, rfl⟩

/-- Writing a table back that has not changed changes nothing. -/
theorem set_tables_same (shelf : Shelf (Table String)) (place : Nat) :
    shelf.set place ((shelf.get? place).getD {}) = shelf := by
  obtain ⟨tables⟩ := shelf
  simp only [Shelf.set, Shelf.get?, Shelf.mk.injEq]
  by_cases inside : place < tables.length
  · simp [inside]
  · rw [List.set_eq_of_length_le (by omega)]

/-- A stack whose variables have not changed goes back without a trace on the others but for the
counter. -/
theorem stack?_store {g : ScopeGroup} {i : Nat} {s s' : ScopeStack} (h : g.stack? i = some s)
    (globals : s'.globals = s.globals) (j : Nat) :
    (g.store i s').stack? j =
      if j = i then some s' else (g.stack? j).map ({ · with serial := s'.serial }) := by
  obtain ⟨m, hm, blocks, serial, table⟩ := stack?_eq_some h
  have inside := (List.getElem?_eq_some_iff.mp hm).1
  simp only [store, hm, globals, table, set_tables_same, stack?, List.getElem?_set]
  by_cases same : j = i
  · subst same
    simp [inside, ← table, ← globals]
  · simp only [if_neg same, if_neg (Ne.symm same), Option.map_map]
    rfl

theorem stack?_join (g : ScopeGroup) (place : Option Nat) (j : Nat) :
    ((g.join place).2.2.stack? j).map (·.blocks) =
      if j = g.members.length then some [] else (g.stack? j).map (·.blocks) := by
  simp only [join, stack?, Option.map_map, Function.comp_def]
  rcases Nat.lt_trichotomy j g.members.length with below | rfl | above
  · rw [List.getElem?_append_left below, if_neg (by omega)]
  · simp
  · rw [if_neg (by omega), List.getElem?_eq_none (by simp; omega),
      List.getElem?_eq_none (by omega)]

theorem stack?_release (g : ScopeGroup) (i j : Nat) :
    ((g.release i).stack? j).map (·.blocks) =
      if j = i then (g.stack? j).map fun _ => [] else (g.stack? j).map (·.blocks) := by
  unfold release
  cases hm : g.members[i]? with
  | none =>
    by_cases same : j = i
    · simp [same, stack?, hm]
    · simp [same]
  | some m =>
    have inside := (List.getElem?_eq_some_iff.mp hm).1
    simp only [stack?, List.getElem?_set, Option.map_map, Function.comp_def]
    by_cases same : j = i
    · subst same
      simp [inside]
    · simp [same, Ne.symm same]

/-- Which ids are open depends on the open blocks alone. -/
theorem isOpen_congr {g g' : ScopeGroup} {i : Nat}
    (h : (g'.stack? i).map (·.blocks) = (g.stack? i).map (·.blocks)) (id : BlockId) :
    g'.isOpen i id = g.isOpen i id := by
  unfold isOpen
  cases hg : g.stack? i with
  | none =>
    rw [hg, Option.map_none, Option.map_eq_none_iff] at h
    rw [h]
  | some s =>
    rw [hg, Option.map_some, Option.map_eq_some_iff] at h
    obtain ⟨s', hs', blocks⟩ := h
    rw [hs']
    simp only [Option.any_some, ScopeStack.isOpen, ScopeStack.blockAt?, blocks]

theorem isOpen_store {g : ScopeGroup} {i : Nat} {s s' : ScopeStack} (h : g.stack? i = some s)
    (globals : s'.globals = s.globals) (j : Nat) (id : BlockId) :
    (g.store i s').isOpen j id = if j = i then s'.isOpen id else g.isOpen j id := by
  by_cases same : j = i
  · rw [if_pos same, isOpen, stack?_store h globals, if_pos same, Option.any_some]
  · rw [if_neg same]
    apply isOpen_congr
    rw [stack?_store h globals, if_neg same, Option.map_map]
    rfl

/-! ### What every run keeps -/

structure Invariant (log : History) (g : ScopeGroup) : Prop where
  serial : g.serial.toNat = (opened log).length
  counted : ∀ id ∈ opened log, id.serial.toNat ≤ (opened log).length
  distinct : (opened log).Nodup
  depth : ∀ i s, g.stack? i = some s → s.depth ≤ (opened log).length
  stands : ∀ i id, g.isOpen i id ↔ Stands log i id

theorem initial_invariant : Invariant [] {} := by
  constructor <;> simp [opened, Stands, isOpen, stack?]

section Step

variable {log : History} {g : ScopeGroup}

/-- A step that opens no block. -/
theorem Invariant.of_no_opening {entry : Operation × Answer} {g' : ScopeGroup}
    (inv : Invariant log g) (none : opening? entry = none) (serial : g'.serial = g.serial)
    (depth : ∀ i s, g'.stack? i = some s → s.depth ≤ (opened log).length)
    (stands : ∀ i id, g'.isOpen i id ↔ Stands (entry :: log) i id) :
    Invariant (entry :: log) g' := by
  have same : opened (entry :: log) = opened log := List.filterMap_cons_none none
  constructor
  · rw [same, serial]
    exact inv.serial
  · rw [same]
    exact inv.counted
  · rw [same]
    exact inv.distinct
  · rw [same]
    exact depth
  · exact stands

/-- A stack goes back with some of its blocks gone. -/
theorem Invariant.of_shrunk {entry : Operation × Answer} {i : Nat} {s s' : ScopeStack}
    (inv : Invariant log g) (h : g.stack? i = some s) (globals : s'.globals = s.globals)
    (serial : s'.serial = s.serial) (shrunk : s'.depth ≤ s.depth)
    (none : opening? entry = none)
    (stands : ∀ j id, Stands (entry :: log) j id ↔
      if j = i then s'.isOpen id = true else Stands log j id) :
    Invariant (entry :: log) (g.store i s') := by
  obtain ⟨m, hm, -, sameSerial, -⟩ := stack?_eq_some h
  apply inv.of_no_opening none
  · simp only [store, hm]
    rw [serial, sameSerial]
  · intro j t ht
    rw [stack?_store h globals] at ht
    split at ht
    · obtain rfl := Option.some.inj ht
      exact Nat.le_trans shrunk (inv.depth i s h)
    · obtain ⟨t', ht', rfl⟩ := Option.map_eq_some_iff.mp ht
      exact inv.depth j t' ht'
  · intro j id
    rw [isOpen_store h globals, stands]
    by_cases self : j = i
    · simp [self]
    · simp [self, inv.stands]

theorem Invariant.isOpen_stack (inv : Invariant log g) {i : Nat} {s : ScopeStack}
    (h : g.stack? i = some s) (id : BlockId) : s.isOpen id ↔ Stands log i id := by
  rw [← inv.stands, isOpen, h, Option.any_some]

theorem Invariant.openBlock_preserves (inv : Invariant log g) {i : Nat} {s : ScopeStack}
    (h : g.stack? i = some s) (few : (opened log).length + 1 ≤ 2 ^ 32 - 1) :
    Invariant ((.openBlock i, .opened s.openBlock.1) :: log) (g.store i s.openBlock.2) := by
  obtain ⟨m, hm, -, same, -⟩ := stack?_eq_some h
  have grown : opened ((.openBlock i, .opened s.openBlock.1) :: log) =
      s.openBlock.1 :: opened log := rfl
  have small : g.serial.toNat + 1 < 2 ^ 32 := by
    rw [inv.serial]
    omega
  have next : (ScopeStack.nextSerial s.serial).toNat = (opened log).length + 1 := by
    rw [same, ScopeStack.toNat_nextSerial small, inv.serial]
  have globals : s.openBlock.2.globals = s.globals := rfl
  have low := inv.depth i s h
  have number : s.openBlock.1.serial.toNat = (opened log).length + 1 := next
  constructor
  · rw [grown, List.length_cons]
    simp only [store, hm]
    exact next
  · rw [grown, List.length_cons]
    intro id mem
    rcases List.mem_cons.mp mem with rfl | old
    · omega
    · have := inv.counted id old
      omega
  · rw [grown, List.nodup_cons]
    refine ⟨fun old => ?_, inv.distinct⟩
    have := inv.counted _ old
    omega
  · rw [grown, List.length_cons]
    intro j t ht
    rw [stack?_store h globals] at ht
    split at ht
    · obtain rfl := Option.some.inj ht
      rw [ScopeStack.depth_openBlock]
      omega
    · obtain ⟨t', ht', rfl⟩ := Option.map_eq_some_iff.mp ht
      exact Nat.le_succ_of_le (inv.depth j t' ht')
  · intro j id
    rw [isOpen_store h globals]
    simp only [Stands]
    by_cases self : j = i
    · subst self
      rw [if_pos rfl, ScopeStack.isOpen_openBlock s (by omega), inv.isOpen_stack h]
      simp [eq_comm]
    · rw [if_neg self, inv.stands]
      simp [Ne.symm self]

theorem Invariant.join_preserves (inv : Invariant log g) (place : Option Nat) :
    Invariant ((.join place, .done) :: log) (g.join place).2.2 := by
  have serial : (g.join place).2.2.serial = g.serial := rfl
  apply inv.of_no_opening rfl serial
  · intro j t ht
    have blocks := stack?_join g place j
    rw [ht, Option.map_some] at blocks
    split at blocks
    · simp [ScopeStack.depth, Option.some.inj blocks]
    · obtain ⟨t', ht', same⟩ := Option.map_eq_some_iff.mp blocks.symm
      have old := inv.depth j t' ht'
      rwa [ScopeStack.depth, same] at old
  · intro j id
    show (g.join place).2.2.isOpen j id ↔ Stands log j id
    rw [← inv.stands]
    by_cases new : j = g.members.length
    · have blocks := stack?_join g place j
      rw [if_pos new] at blocks
      obtain ⟨t, ht, empty⟩ := Option.map_eq_some_iff.mp blocks
      have absent : g.stack? j = none := by simp [stack?, new]
      simp [isOpen, ht, absent, ScopeStack.isOpen_nil empty]
    · rw [isOpen_congr]
      rw [stack?_join, if_neg new]

theorem Invariant.close_preserves (inv : Invariant log g) {i : Nat} {s s' : ScopeStack}
    {id : BlockId} (h : g.stack? i = some s) (closed : s.close id = .ok s') :
    Invariant ((.close i id, .done) :: log) (g.store i s') := by
  obtain ⟨top, outer, blocks, -, -, rfl⟩ := ScopeStack.close_eq_ok.mp closed
  refine inv.of_shrunk h rfl rfl (by simp [ScopeStack.depth, blocks]) rfl fun j other => ?_
  simp only [Stands]
  by_cases self : j = i
  · subst self
    rw [if_pos rfl, ScopeStack.isOpen_close closed, inv.isOpen_stack h]
    simp [eq_comm]
  · simp [self, Ne.symm self]

theorem Invariant.truncate_preserves (inv : Invariant log g) {i : Nat} {s : ScopeStack}
    (h : g.stack? i = some s) (depth : Nat) :
    Invariant ((.truncate i depth, .done) :: log) (g.store i (s.truncate depth)) := by
  have shrunk : (s.truncate depth).depth ≤ s.depth := by
    rw [ScopeStack.depth_truncate]
    exact Nat.min_le_right _ _
  refine inv.of_shrunk h rfl rfl shrunk rfl fun j id => ?_
  simp only [Stands]
  by_cases self : j = i
  · subst self
    rw [if_pos rfl, ScopeStack.isOpen_truncate, inv.isOpen_stack h]
    simp
  · simp [self, Ne.symm self]

theorem Invariant.release_preserves (inv : Invariant log g) (i : Nat) :
    Invariant ((.release i, .done) :: log) (g.release i) := by
  have serial : (g.release i).serial = g.serial := by
    unfold release
    split <;> rfl
  apply inv.of_no_opening rfl serial
  · intro j t ht
    have blocks := stack?_release g i j
    rw [ht, Option.map_some] at blocks
    split at blocks
    · obtain ⟨t', ht', empty⟩ := Option.map_eq_some_iff.mp blocks.symm
      simp [ScopeStack.depth, ← empty]
    · obtain ⟨t', ht', same⟩ := Option.map_eq_some_iff.mp blocks.symm
      have old := inv.depth j t' ht'
      rwa [ScopeStack.depth, same] at old
  · intro j id
    show (g.release i).isOpen j id ↔ i ≠ j ∧ Stands log j id
    by_cases self : j = i
    · subst self
      have blocks := stack?_release g j j
      rw [if_pos rfl] at blocks
      simp only [ne_eq, not_true_eq_false, false_and, iff_false]
      cases ht : (g.release j).stack? j with
      | none => simp [isOpen, ht]
      | some t =>
        rw [ht, Option.map_some] at blocks
        obtain ⟨t', -, empty⟩ := Option.map_eq_some_iff.mp blocks.symm
        simp [isOpen, ht, ScopeStack.isOpen_nil empty.symm]
    · rw [isOpen_congr, inv.stands]
      · simp [Ne.symm self]
      · rw [stack?_release, if_neg self]

theorem perform_preserves (inv : Invariant log g) (op : Operation)
    (few : (opened ((op, (g.perform op).1) :: log)).length ≤ 2 ^ 32 - 1) :
    Invariant ((op, (g.perform op).1) :: log) (g.perform op).2 := by
  cases op with
  | join place => exact inv.join_preserves place
  | openBlock i =>
    cases h : g.stack? i with
    | none =>
      simp only [perform, h]
      exact inv.of_no_opening rfl rfl inv.depth inv.stands
    | some s =>
      have done : g.perform (.openBlock i) = (.opened s.openBlock.1, g.store i s.openBlock.2) := by
        simp [perform, h]
      rw [done] at few ⊢
      exact inv.openBlock_preserves h few
  | close i id =>
    cases h : g.stack? i with
    | none =>
      simp only [perform, h]
      exact inv.of_no_opening rfl rfl inv.depth inv.stands
    | some s =>
      cases closed : s.close id with
      | error cause =>
        simp only [perform, h, closed]
        exact inv.of_no_opening rfl rfl inv.depth inv.stands
      | ok s' =>
        simp only [perform, h, closed]
        exact inv.close_preserves h closed
  | truncate i depth =>
    cases h : g.stack? i with
    | none =>
      simp only [perform, h]
      refine inv.of_no_opening rfl rfl inv.depth fun j id => ?_
      simp only [Stands, inv.stands, iff_and_self]
      rintro stands ⟨rfl, -⟩
      have isOpen := (inv.stands i id).mpr stands
      simp [ScopeGroup.isOpen, h] at isOpen
    | some s =>
      simp only [perform, h]
      exact inv.truncate_preserves h depth
  | release i => exact inv.release_preserves i

end Step

theorem opened_cons (entry : Operation × Answer) (log : History) :
    (opened log).length ≤ (opened (entry :: log)).length :=
  ((List.sublist_cons_self entry log).filterMap opening?).length_le

theorem run_invariant (ops : List Operation)
    (few : (opened (run ops).1).length ≤ 2 ^ 32 - 1) : Invariant (run ops).1 (run ops).2 := by
  induction ops with
  | nil => exact initial_invariant
  | cons op earlier ih =>
    have before := ih (Nat.le_trans (opened_cons _ _) few)
    exact perform_preserves before op few

theorem Invariant.close_iff {log : History} {g : ScopeGroup} (inv : Invariant log g)
    (few : (opened log).length ≤ 2 ^ 32 - 1) (i : Nat) (id : BlockId) :
    (g.perform (.close i id)).1 = .done ↔ Innermost log i id := by
  cases h : g.stack? i with
  | none =>
    have nothing : ¬ Stands log i id := by
      rw [← inv.stands]
      simp [isOpen, h]
    simp [perform, h, Innermost, nothing]
  | some s =>
    have low := inv.depth i s h
    have deepest := s.close_iff_deepest (by omega) id
    simp only [inv.isOpen_stack h] at deepest
    rw [Innermost, ← deepest]
    simp only [perform, h]
    cases s.close id <;> simp

/-- Stacks that share one counter, with at most `2 ^ 32 - 1` blocks opened on them. No id is given
out twice, on whatever stack. An id, made up or not, is open on a stack exactly when the block it was
given to stands there. Closing succeeds exactly for the innermost block that stands on the stack and
takes that one away alone; when it fails, nothing changes on any stack. -/
theorem run_block_ids (ops : List Operation)
    (few : (opened (run ops).1).length ≤ 2 ^ 32 - 1) :
    let log := (run ops).1
    let g := (run ops).2
    (opened log).Nodup ∧ (∀ i id, g.isOpen i id ↔ Stands log i id) ∧
      (∀ i id, (g.perform (.close i id)).1 = .done ↔ Innermost log i id) ∧
      (∀ i id, Innermost log i id → ∀ j, (g.perform (.close i id)).2.stack? j =
        if j = i then (g.stack? j).map fun s => { s with blocks := s.blocks.tail }
        else g.stack? j) ∧
      ∀ i id, ¬ Innermost log i id → (g.perform (.close i id)).2 = g := by
  intro log g
  have inv : Invariant log g := run_invariant ops few
  refine ⟨inv.distinct, inv.stands, inv.close_iff few, ?_, ?_⟩
  · intro i id innermost j
    have done := (inv.close_iff few i id).mpr innermost
    cases h : g.stack? i with
    | none => simp [perform, h] at done
    | some s =>
      cases closed : s.close id with
      | error cause => simp [perform, h, closed] at done
      | ok s' =>
        obtain ⟨top, outer, blocks, -, -, rfl⟩ := ScopeStack.close_eq_ok.mp closed
        obtain ⟨-, -, -, serial, -⟩ := stack?_eq_some h
        have globals : ({ s with blocks := outer } : ScopeStack).globals = s.globals := rfl
        simp only [perform, h, closed]
        rw [stack?_store h globals]
        by_cases self : j = i
        · subst self
          simp [h, blocks]
        · rw [if_neg self, if_neg self]
          cases hj : g.stack? j with
          | none => rfl
          | some t =>
            obtain ⟨-, -, -, serial', -⟩ := stack?_eq_some hj
            simp [serial, ← serial']
  · intro i id other
    have failed : (g.perform (.close i id)).1 ≠ .done := fun done =>
      other ((inv.close_iff few i id).mp done)
    cases h : g.stack? i with
    | none => simp [perform, h]
    | some s =>
      cases closed : s.close id with
      | error cause => simp [perform, h, closed]
      | ok s' => simp [perform, h, closed] at failed

/-- Two stacks. The depth of a closed block is used again, but not its id, and no id is open on the
other stack. -/
theorem run_block_ids_apart :
    let ops : List Operation :=
      [.openBlock 0, .close 0 ⟨1, 1⟩, .openBlock 1, .openBlock 0, .join none, .join none]
    let log := (run ops).1
    let g := (run ops).2
    opened log = [⟨1, 3⟩, ⟨1, 2⟩, ⟨1, 1⟩] ∧ (g.isOpen 0 ⟨1, 3⟩ ∧ Stands log 0 ⟨1, 3⟩) ∧
      (g.isOpen 0 ⟨1, 2⟩ ↔ Stands log 0 ⟨1, 2⟩) ∧ (g.perform (.close 0 ⟨1, 1⟩)).2 = g := by
  intro ops log g
  have given : opened log = [⟨1, 3⟩, ⟨1, 2⟩, ⟨1, 1⟩] := by decide
  have few : (opened log).length ≤ 2 ^ 32 - 1 := by
    rw [given]
    decide
  obtain ⟨-, stands, -, -, unchanged⟩ := run_block_ids ops few
  have isOpen : g.isOpen 0 ⟨1, 3⟩ := by decide
  refine ⟨given, ⟨isOpen, (stands 0 ⟨1, 3⟩).mp isOpen⟩, stands 0 ⟨1, 2⟩, ?_⟩
  apply unchanged 0 ⟨1, 1⟩
  rintro ⟨standing, -⟩
  have stale := (stands 0 ⟨1, 1⟩).mpr standing
  exact absurd stale (by decide)

end ScopeGroup

end Scriptlet
