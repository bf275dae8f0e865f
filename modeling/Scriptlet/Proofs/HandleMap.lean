import Mathlib.Algebra.Group.Nat.Defs
import Mathlib.Data.List.Nodup
import Scriptlet.Handle

/-!
A handle table is a finite map. What a table holds is told by its history: the handles it has given
out, those whose value was taken out again, and the value stored last under each. The free list and
the generations of the slots only serve to tell these handles apart.
-/

namespace Scriptlet.HandleTable

variable {α : Type}

inductive Operation (α : Type) where
  | insert (a : α)
  | insertWith (make : Handle → α)
  | get (h : Handle)
  | modify (h : Handle) (change : α → α)
  | contains (h : Handle)
  | remove (h : Handle)

inductive Answer (α : Type) where
  | handle (h : Handle)
  | value (a : Option α)
  | flag (b : Bool)

def perform (t : HandleTable α) : Operation α → Answer α × HandleTable α
  | .insert a => ((t.insert a).1 |> .handle, (t.insert a).2)
  | .insertWith make => ((t.insertWith make).1 |> .handle, (t.insertWith make).2)
  | .get h => (.value (t.get? h), t)
  | .modify h change =>
    match t.get? h with
    | some a => (.value (some a), t.set h (change a))
    | none => (.value none, t)
  | .contains h => (.flag (t.contains h), t)
  | .remove h => ((t.remove h).1 |> .value, (t.remove h).2)

/-- What was done to a table and what it answered, the latest first. -/
abbrev History (α : Type) := List (Operation α × Answer α)

def run : List (Operation α) → History α × HandleTable α
  | [] => ([], {})
  | op :: earlier =>
    let (log, t) := run earlier
    ((op, (t.perform op).1) :: log, (t.perform op).2)

/-! ### What the history tells -/

def issue? : Operation α × Answer α → Option Handle
  | (_, .handle h) => some h
  | _ => none

def taken? : Operation α × Answer α → Option Handle
  | (.remove h, .value (some _)) => some h
  | _ => none

def issued (log : History α) : List Handle := log.filterMap issue?

def removed (log : History α) : List Handle := log.filterMap taken?

def removals (log : History α) (i : Nat) : Nat := (removed log).countP (·.index.toNat = i)

/-- The value stored last under a handle, taken out since or not. -/
def stored : History α → Handle → Option α
  | [], _ => none
  | (.insert a, .handle k) :: log, h => if k = h then some a else stored log h
  | (.insertWith make, .handle k) :: log, h => if k = h then some (make k) else stored log h
  | (.modify k change, .value (some _)) :: log, h =>
    if k = h then (stored log h).map change else stored log h
  | _ :: log, h => stored log h

def live (log : History α) : List Handle := (issued log).filter (· ∉ removed log)

theorem mem_live {log : History α} {h : Handle} :
    h ∈ live log ↔ h ∈ issued log ∧ h ∉ removed log := by
  simp [live]

/-! ### Slots -/

theorem get?_eq_some {t : HandleTable α} {h : Handle} {a : α} :
    t.get? h = some a ↔ t.slots[h.index.toNat]? = some ⟨h.generation, some a⟩ := by
  unfold get? slot?
  cases hslot : t.slots[h.index.toNat]? with
  | none => simp
  | some slot =>
    obtain ⟨generation, value⟩ := slot
    by_cases same : generation = h.generation
    · simp [same]
    · simp [same]

structure Invariant (log : History α) (t : HandleTable α) : Prop where
  generation : ∀ i slot, t.slots[i]? = some slot → slot.generation.toNat = removals log i + 1
  given : ∀ h, h ∈ issued log ↔ ∃ slot, t.slots[h.index.toNat]? = some slot ∧
    0 < h.generation.toNat ∧ (h.generation.toNat < slot.generation.toNat ∨
      h.generation = slot.generation ∧ slot.value.isSome)
  gone : ∀ h, h ∈ removed log ↔ ∃ slot, t.slots[h.index.toNat]? = some slot ∧
    0 < h.generation.toNat ∧ h.generation.toNat < slot.generation.toNat
  value : ∀ h a, t.slots[h.index.toNat]? = some ⟨h.generation, some a⟩ → stored log h = some a
  vacant : ∀ i : UInt32, i ∈ t.free ↔ ∃ g, t.slots[i.toNat]? = some ⟨g, none⟩
  distinct_free : t.free.Nodup
  distinct : (issued log).Nodup
  size : t.size = (live log).length

theorem initial_invariant : Invariant ([] : History α) {} := by
  constructor <;> simp [issued, removed, live]

namespace Invariant

variable {log : History α} {t : HandleTable α}

theorem mem_live_iff (inv : Invariant log t) (h : Handle) :
    h ∈ live log ↔ ∃ a, t.get? h = some a := by
  simp only [mem_live, get?_eq_some]
  constructor
  · rintro ⟨given, standing⟩
    obtain ⟨slot, hslot, pos, older | ⟨same, full⟩⟩ := (inv.given h).mp given
    · exact absurd ((inv.gone h).mpr ⟨slot, hslot, pos, older⟩) standing
    · obtain ⟨a, ha⟩ := Option.isSome_iff_exists.mp full
      refine ⟨a, ?_⟩
      rw [hslot, same, ← ha]
  · rintro ⟨a, hslot⟩
    have pos : 0 < h.generation.toNat := by
      rw [inv.generation _ _ hslot]
      omega
    refine ⟨(inv.given h).mpr ⟨_, hslot, pos, .inr ⟨rfl, rfl⟩⟩, fun gone => ?_⟩
    obtain ⟨slot, hslot', -, older⟩ := (inv.gone h).mp gone
    rw [hslot] at hslot'
    obtain rfl := Option.some.inj hslot'
    exact Nat.lt_irrefl _ older

/-- An entry that gives no handle out and takes no value out. -/
theorem of_quiet {entry : Operation α × Answer α} (inv : Invariant log t)
    (noIssue : issue? entry = none) (noRemoval : taken? entry = none)
    (noStore : ∀ h, stored (entry :: log) h = stored log h) : Invariant (entry :: log) t := by
  have given : issued (entry :: log) = issued log := List.filterMap_cons_none noIssue
  have gone : removed (entry :: log) = removed log := List.filterMap_cons_none noRemoval
  constructor
  · simpa only [removals, gone] using inv.generation
  · simpa only [given] using inv.given
  · simpa only [gone] using inv.gone
  · simpa only [noStore] using inv.value
  · exact inv.vacant
  · exact inv.distinct_free
  · simpa only [given] using inv.distinct
  · simpa only [live, given, gone] using inv.size

end Invariant

/-! ### One slot written -/

structure Written (t t' : HandleTable α) (index : UInt32) (slot : Slot α) : Prop where
  slots : ∀ i : Nat, t'.slots[i]? = if i = index.toNat then some slot else t.slots[i]?

namespace Written

variable {t t' : HandleTable α} {index i : UInt32} {slot : Slot α}

theorem self (w : Written t t' index slot) : t'.slots[index.toNat]? = some slot := by
  rw [w.slots, if_pos rfl]

theorem of_ne (w : Written t t' index slot) (other : i ≠ index) :
    t'.slots[i.toNat]? = t.slots[i.toNat]? := by
  rw [w.slots, if_neg fun e => other (UInt32.toNat.inj e)]

theorem of_set (inside : index.toNat < t.slots.length)
    (h : t'.slots = t.slots.set index.toNat slot) : Written t t' index slot where
  slots i := by
    rw [h, List.getElem?_set]
    by_cases same : i = index.toNat
    · simp [same, inside]
    · simp [same, Ne.symm same]

/-- What the new slot and the slots that are kept have in common, all slots have. -/
theorem all {P : Nat → Slot α → Prop} (w : Written t t' index slot) (new : P index.toNat slot)
    (old : ∀ i slot, i ≠ index.toNat → t.slots[i]? = some slot → P i slot) :
    ∀ i slot, t'.slots[i]? = some slot → P i slot := by
  intro i slot' found
  rw [w.slots] at found
  by_cases same : i = index.toNat
  · rw [if_pos same] at found
    obtain rfl := Option.some.inj found
    rwa [same]
  · rw [if_neg same] at found
    exact old i slot' same found

end Written

/-! ### Insertion -/

/-- A value has been put under a handle: into a vacant slot of the handle's generation, or into one
more slot of the first generation. -/
structure Inserted (t t' : HandleTable α) (h : Handle) (a : α) : Prop where
  room : t.slots[h.index.toNat]? = some ⟨h.generation, none⟩ ∨
    t.slots[h.index.toNat]? = none ∧ h.generation = 1
  slots : ∀ i, t'.slots[i]? =
    if i = h.index.toNat then some ⟨h.generation, some a⟩ else t.slots[i]?
  free : ∀ i, i ∈ t'.free ↔ i ∈ t.free ∧ i ≠ h.index
  distinct_free : t'.free.Nodup
  size : t'.size = t.size + 1

theorem insertWith_inserted {log : History α} {t : HandleTable α} (inv : Invariant log t)
    (make : Handle → α) (few : (t.insertWith make).2.slots.length < 2 ^ 32) :
    Inserted t (t.insertWith make).2 (t.insertWith make).1 (make (t.insertWith make).1) := by
  cases hfree : t.free with
  | nil =>
    simp only [insertWith, hfree, List.length_append, List.length_singleton] at few ⊢
    have last : (UInt32.ofNat t.slots.length).toNat = t.slots.length := by
      rw [UInt32.toNat_ofNat', Nat.mod_eq_of_lt (by omega)]
    refine ⟨.inr ⟨?_, rfl⟩, fun i => ?_, by simp [hfree], by simp, rfl⟩
    · simp [last]
    · rw [last]
      rcases Nat.lt_trichotomy i t.slots.length with below | rfl | above
      · rw [List.getElem?_append_left below, if_neg (by omega)]
      · simp
      · rw [if_neg (by omega), List.getElem?_eq_none (by simp; omega),
          List.getElem?_eq_none (by omega)]
  | cons index free =>
    obtain ⟨g, hslot⟩ := (inv.vacant index).mp (by simp [hfree])
    have distinct := List.nodup_cons.mp (hfree ▸ inv.distinct_free)
    simp only [insertWith, hfree, hslot, Option.map_some, Option.getD_some]
    have written : Written t
        { slots := t.slots.set index.toNat ⟨g, some (make ⟨index, g⟩)⟩, free, size := t.size + 1 }
        index ⟨g, some (make ⟨index, g⟩)⟩ :=
      .of_set (List.getElem?_eq_some_iff.mp hslot).1 rfl
    refine ⟨.inl hslot, written.slots, fun i => ?_, distinct.2, rfl⟩
    rw [hfree, List.mem_cons]
    constructor
    · intro mem
      refine ⟨.inr mem, ?_⟩
      rintro rfl
      exact distinct.1 mem
    · rintro ⟨same | mem, other⟩
      · exact absurd same other
      · exact mem

namespace Inserted

variable {log : History α} {t t' : HandleTable α} {h k : Handle} {a : α}

theorem written (ins : Inserted t t' h a) : Written t t' h.index ⟨h.generation, some a⟩ :=
  ⟨ins.slots⟩

/-- The handle of a new value has never been given out. -/
theorem fresh (ins : Inserted t t' h a) (inv : Invariant log t) : h ∉ issued log := by
  intro given
  obtain ⟨slot, hslot, -, age⟩ := (inv.given h).mp given
  rcases ins.room with vacant | ⟨absent, -⟩
  · rw [vacant] at hslot
    obtain rfl := Option.some.inj hslot
    rcases age with older | ⟨-, full⟩
    · exact Nat.lt_irrefl _ older
    · cases full
  · rw [absent] at hslot
    cases hslot

theorem generation_eq (ins : Inserted t t' h a) (inv : Invariant log t) :
    h.generation.toNat = removals log h.index.toNat + 1 := by
  rcases ins.room with vacant | ⟨absent, first⟩
  · exact inv.generation _ _ vacant
  · have none : removals log h.index.toNat = 0 := by
      rw [removals, List.countP_eq_zero]
      intro k gone same
      obtain ⟨slot, hslot, -⟩ := (inv.gone k).mp gone
      rw [decide_eq_true_eq.mp same, absent] at hslot
      cases hslot
    rw [none, first]
    rfl

/-- Handles of the slot that is filled: those of earlier generations have been through it. -/
theorem older_iff (ins : Inserted t t' h a) (inv : Invariant log t) (same : k.index = h.index) :
    k ∈ removed log ↔ 0 < k.generation.toNat ∧ k.generation.toNat < h.generation.toNat := by
  rw [inv.gone k, same]
  rcases ins.room with vacant | ⟨absent, first⟩
  · simp [vacant]
  · rw [first]
    simp [absent]
    omega

/-- Of the slot that is filled no handle was live. -/
theorem issued_iff_removed (ins : Inserted t t' h a) (inv : Invariant log t)
    (same : k.index = h.index) : k ∈ issued log ↔ k ∈ removed log := by
  rw [inv.given k, inv.gone k, same]
  rcases ins.room with vacant | ⟨absent, -⟩
  · simp [vacant]
  · simp [absent]

/-- The handles given out are the new one and those given out before. -/
theorem given_iff (ins : Inserted t t' h a) (inv : Invariant log t) :
    k = h ∨ k ∈ issued log ↔ ∃ slot, t'.slots[k.index.toNat]? = some slot ∧
      0 < k.generation.toNat ∧ (k.generation.toNat < slot.generation.toNat ∨
        k.generation = slot.generation ∧ slot.value.isSome) := by
  by_cases same : k.index = h.index
  · have pos : 0 < h.generation.toNat := by
      rw [ins.generation_eq inv]
      omega
    rw [same, ins.written.self, ins.issued_iff_removed inv same, ins.older_iff inv same,
      Handle.ext_iff, and_iff_right same, ← UInt32.toNat_inj]
    simp only [Option.some.injEq, exists_eq_left', Option.isSome_some, and_true,
      ← UInt32.toNat_inj]
    omega
  · have ne : k ≠ h := fun e => same (e ▸ rfl)
    rw [ins.written.of_ne same, inv.given k]
    simp [ne]

theorem gone_iff (ins : Inserted t t' h a) (inv : Invariant log t) :
    k ∈ removed log ↔ ∃ slot, t'.slots[k.index.toNat]? = some slot ∧
      0 < k.generation.toNat ∧ k.generation.toNat < slot.generation.toNat := by
  by_cases same : k.index = h.index
  · rw [same, ins.written.self, ins.older_iff inv same]
    simp
  · rw [ins.written.of_ne same, inv.gone k]

theorem value_eq (ins : Inserted t t' h a) (inv : Invariant log t) {b : α}
    (hslot : t'.slots[k.index.toNat]? = some ⟨k.generation, some b⟩) :
    (if h = k then some a else stored log k) = some b := by
  by_cases same : k.index = h.index
  · rw [same, ins.written.self] at hslot
    obtain ⟨generation, value⟩ := Slot.mk.inj (Option.some.inj hslot)
    rw [if_pos (Handle.ext same.symm generation), value]
  · rw [ins.written.of_ne same] at hslot
    rw [if_neg fun e : h = k => same (e ▸ rfl), inv.value k b hslot]

theorem vacant_iff (ins : Inserted t t' h a) (inv : Invariant log t) (i : UInt32) :
    i ∈ t'.free ↔ ∃ g, t'.slots[i.toNat]? = some ⟨g, none⟩ := by
  rw [ins.free, inv.vacant]
  by_cases same : i = h.index
  · subst same
    simp [ins.written.self]
  · simp [ins.written.of_ne same, same]

theorem preserves {op : Operation α} (ins : Inserted t t' h a) (inv : Invariant log t)
    (quiet : taken? (op, .handle h) = none)
    (store : ∀ k, stored ((op, .handle h) :: log) k = if h = k then some a else stored log k) :
    Invariant ((op, .handle h) :: log) t' := by
  have given : issued ((op, .handle h) :: log) = h :: issued log := rfl
  have gone : removed ((op, .handle h) :: log) = removed log := List.filterMap_cons_none quiet
  have standing : h ∉ removed log := by
    rw [ins.older_iff inv rfl]
    omega
  constructor
  · simp only [removals, gone]
    exact ins.written.all (ins.generation_eq inv) fun i slot _ => inv.generation i slot
  · intro k
    rw [given, List.mem_cons]
    exact ins.given_iff inv
  · intro k
    rw [gone]
    exact ins.gone_iff inv
  · intro k b hslot
    rw [store]
    exact ins.value_eq inv hslot
  · exact ins.vacant_iff inv
  · exact ins.distinct_free
  · rw [given]
    exact List.nodup_cons.mpr ⟨ins.fresh inv, inv.distinct⟩
  · have grown : live ((op, .handle h) :: log) = h :: live log := by
      simp [live, given, gone, standing]
    rw [grown, ins.size, inv.size, List.length_cons]

end Inserted

/-! ### Removal -/

structure Emptied (t t' : HandleTable α) (h : Handle) : Prop where
  full : ∃ a, t.slots[h.index.toNat]? = some ⟨h.generation, some a⟩
  written : Written t t' h.index ⟨nextGeneration h.generation, none⟩
  free : t'.free = h.index :: t.free
  size : t'.size = t.size - 1

theorem remove_emptied {t : HandleTable α} {h : Handle} {a : α} (found : t.get? h = some a) :
    Emptied t (t.remove h).2 h := by
  have hslot := get?_eq_some.mp found
  refine ⟨⟨a, hslot⟩, .of_set (List.getElem?_eq_some_iff.mp hslot).1 ?_, ?_, ?_⟩
  all_goals simp [remove, found]

namespace Emptied

variable {log : History α} {t t' : HandleTable α} {h k : Handle} {a : α}

/-- The handles given out are those given out before, the emptied one now among the older ones. -/
theorem given_iff (emp : Emptied t t' h) (inv : Invariant log t)
    (next : (nextGeneration h.generation).toNat = h.generation.toNat + 1) :
    k ∈ issued log ↔ ∃ slot, t'.slots[k.index.toNat]? = some slot ∧
      0 < k.generation.toNat ∧ (k.generation.toNat < slot.generation.toNat ∨
        k.generation = slot.generation ∧ slot.value.isSome) := by
  rw [inv.given k]
  by_cases same : k.index = h.index
  · obtain ⟨a, hslot⟩ := emp.full
    rw [same, emp.written.self, hslot]
    simp only [Option.some.injEq, exists_eq_left', next, Option.isSome_some, Option.isSome_none,
      Bool.false_eq_true, and_false, or_false, and_true]
    rw [← UInt32.toNat_inj]
    omega
  · rw [emp.written.of_ne same]

/-- The handles taken out are the emptied one and those taken out before. -/
theorem gone_iff (emp : Emptied t t' h) (inv : Invariant log t)
    (next : (nextGeneration h.generation).toNat = h.generation.toNat + 1) :
    k = h ∨ k ∈ removed log ↔ ∃ slot, t'.slots[k.index.toNat]? = some slot ∧
      0 < k.generation.toNat ∧ k.generation.toNat < slot.generation.toNat := by
  obtain ⟨a, hslot⟩ := emp.full
  have age := inv.generation _ _ hslot
  dsimp only at age
  rw [inv.gone k]
  by_cases same : k.index = h.index
  · rw [same, emp.written.self, hslot, Handle.ext_iff, and_iff_right same, ← UInt32.toNat_inj]
    simp only [Option.some.injEq, exists_eq_left', next]
    omega
  · have ne : k ≠ h := fun e => same (e ▸ rfl)
    simp [ne, emp.written.of_ne same]

theorem value_eq (emp : Emptied t t' h) (inv : Invariant log t) {b : α}
    (hslot : t'.slots[k.index.toNat]? = some ⟨k.generation, some b⟩) : stored log k = some b := by
  by_cases same : k.index = h.index
  · simp [same, emp.written.self] at hslot
  · rw [emp.written.of_ne same] at hslot
    exact inv.value k b hslot

theorem vacant_iff (emp : Emptied t t' h) (inv : Invariant log t) (i : UInt32) :
    i ∈ t'.free ↔ ∃ g, t'.slots[i.toNat]? = some ⟨g, none⟩ := by
  rw [emp.free, List.mem_cons, inv.vacant]
  by_cases same : i = h.index
  · subst same
    simp [emp.written.self]
  · simp [emp.written.of_ne same, same]

theorem distinct_free (emp : Emptied t t' h) (inv : Invariant log t) : t'.free.Nodup := by
  rw [emp.free, List.nodup_cons]
  refine ⟨fun vacant => ?_, inv.distinct_free⟩
  obtain ⟨g, none⟩ := (inv.vacant h.index).mp vacant
  obtain ⟨a, full⟩ := emp.full
  rw [full] at none
  cases none

theorem preserves (emp : Emptied t t' h) (inv : Invariant log t)
    (few : removals ((.remove h, .value (some a)) :: log) h.index.toNat < 2 ^ 32 - 1) :
    Invariant ((.remove h, .value (some a)) :: log) t' := by
  obtain ⟨b, hslot⟩ := emp.full
  have given : issued ((.remove h, .value (some a)) :: log) = issued log := rfl
  have gone : removed ((.remove h, .value (some a)) :: log) = h :: removed log := rfl
  have counted : ∀ i, removals ((.remove h, .value (some a)) :: log) i =
      removals log i + if h.index.toNat = i then 1 else 0 := by
    intro i
    rw [removals, gone, List.countP_cons]
    simp [removals]
  have age : h.generation.toNat = removals log h.index.toNat + 1 := inv.generation _ _ hslot
  rw [counted, if_pos rfl] at few
  have small : h.generation.toNat + 1 < 2 ^ 32 := by omega
  have next : (nextGeneration h.generation).toNat = h.generation.toNat + 1 :=
    toNat_nextGeneration small
  constructor
  · refine emp.written.all ?_ fun i slot other hslot => ?_
    · rw [counted, if_pos rfl, next, age]
    · rw [counted, if_neg other.symm, inv.generation i slot hslot]
  · intro k
    rw [given]
    exact emp.given_iff inv next
  · intro k
    rw [gone, List.mem_cons]
    exact emp.gone_iff inv next
  · exact fun k b hslot => emp.value_eq inv hslot
  · exact emp.vacant_iff inv
  · exact emp.distinct_free inv
  · exact inv.distinct
  · have alive : h ∈ live log := (inv.mem_live_iff h).mpr ⟨b, get?_eq_some.mpr hslot⟩
    have shrunk : live ((.remove h, .value (some a)) :: log) = (live log).erase h := by
      have distinct : (live log).Nodup := inv.distinct.filter _
      rw [distinct.erase_eq_filter]
      simp only [live, given, gone, List.filter_filter, List.mem_cons, not_or]
      congr 1
      funext k
      by_cases same : k = h <;> simp [same]
    rw [shrunk, List.length_erase_of_mem alive, emp.size, inv.size]

end Emptied

/-! ### Change -/

section Change

variable {log : History α} {t : HandleTable α} {h : Handle} {a : α}

theorem set_written (found : t.get? h = some a) (b : α) :
    Written t (t.set h b) h.index ⟨h.generation, some b⟩ := by
  have hslot := get?_eq_some.mp found
  refine .of_set (List.getElem?_eq_some_iff.mp hslot).1 ?_
  simp [set, contains, found]

/-- A slot that is written keeps its generation and stays filled. -/
theorem exists_slot_set (found : t.get? h = some a) (b : α) (i : Nat) (P : UInt32 → Bool → Prop) :
    (∃ slot : Slot α, (t.set h b).slots[i]? = some slot ∧ P slot.generation slot.value.isSome) ↔
      ∃ slot : Slot α, t.slots[i]? = some slot ∧ P slot.generation slot.value.isSome := by
  rw [(set_written found b).slots]
  by_cases same : i = h.index.toNat
  · simp [same, get?_eq_some.mp found]
  · simp [same]

theorem modify_preserves (inv : Invariant log t) (found : t.get? h = some a) (change : α → α) :
    Invariant ((.modify h change, .value (some a)) :: log) (t.set h (change a)) := by
  have hslot := get?_eq_some.mp found
  have written := set_written found (change a)
  have free : (t.set h (change a)).free = t.free := by
    unfold set
    split <;> rfl
  have size : (t.set h (change a)).size = t.size := by
    unfold set
    split <;> rfl
  have alike := exists_slot_set found (change a)
  constructor
  · have age : h.generation.toNat = removals log h.index.toNat + 1 := inv.generation _ _ hslot
    exact written.all age fun i slot _ => inv.generation i slot
  · intro k
    exact (inv.given k).trans (alike k.index.toNat fun g full => 0 < k.generation.toNat ∧
      (k.generation.toNat < g.toNat ∨ k.generation = g ∧ full)).symm
  · intro k
    exact (inv.gone k).trans (alike k.index.toNat fun g _ => 0 < k.generation.toNat ∧
      k.generation.toNat < g.toNat).symm
  · intro k b hk
    by_cases same : k.index = h.index
    · rw [same, written.self] at hk
      obtain ⟨generation, value⟩ := Slot.mk.inj (Option.some.inj hk)
      obtain rfl : h = k := Handle.ext same.symm generation
      simp only [stored, if_pos, inv.value h a hslot, Option.map_some, value]
    · rw [written.of_ne same] at hk
      simp only [stored, if_neg fun e : h = k => same (e ▸ rfl)]
      exact inv.value k b hk
  · intro i
    rw [free, inv.vacant]
    by_cases same : i = h.index
    · subst same
      simp [written.self, hslot]
    · rw [written.of_ne same]
  · rw [free]
    exact inv.distinct_free
  · exact inv.distinct
  · rw [size]
    exact inv.size

end Change

/-! ### Runs -/

/-- Slots are only ever added, and removals only ever counted up. -/
theorem slots_perform (t : HandleTable α) (op : Operation α) :
    t.slots.length ≤ (t.perform op).2.slots.length := by
  have room : ∀ make, t.slots.length ≤ (t.insertWith make).2.slots.length := by
    intro make
    unfold insertWith
    split <;> simp
  cases op with
  | insert a => exact room fun _ => a
  | insertWith make => exact room make
  | get h => exact Nat.le_refl _
  | modify h change =>
    simp only [perform]
    split
    · unfold set
      split <;> simp
    · exact Nat.le_refl _
  | contains h => exact Nat.le_refl _
  | remove h =>
    simp only [perform, remove]
    split <;> simp

theorem removals_cons (entry : Operation α × Answer α) (log : History α) (i : Nat) :
    removals log i ≤ removals (entry :: log) i := by
  have tail : (removed log).Sublist (removed (entry :: log)) :=
    (List.sublist_cons_self entry log).filterMap taken?
  exact tail.countP_le

theorem perform_preserves {log : History α} {t : HandleTable α} (inv : Invariant log t)
    (op : Operation α) (slots : (t.perform op).2.slots.length < 2 ^ 32)
    (few : ∀ i, removals ((op, (t.perform op).1) :: log) i < 2 ^ 32 - 1) :
    Invariant ((op, (t.perform op).1) :: log) (t.perform op).2 := by
  cases op with
  | insert a =>
    exact (insertWith_inserted inv (fun _ => a) slots).preserves inv rfl fun _ => rfl
  | insertWith make =>
    exact (insertWith_inserted inv make slots).preserves inv rfl fun _ => rfl
  | get h => exact inv.of_quiet rfl rfl fun _ => rfl
  | contains h => exact inv.of_quiet rfl rfl fun _ => rfl
  | modify h change =>
    cases found : t.get? h with
    | none =>
      simp only [perform, found]
      exact inv.of_quiet rfl rfl fun _ => rfl
    | some a =>
      simp only [perform, found]
      exact modify_preserves inv found change
  | remove h =>
    cases found : t.get? h with
    | none =>
      simp only [perform, remove, found]
      exact inv.of_quiet rfl rfl fun _ => rfl
    | some a =>
      have answer : (t.perform (.remove h)).1 = .value (some a) := by
        simp [perform, remove, found]
      rw [answer] at few ⊢
      exact (remove_emptied found).preserves inv (few _)

theorem run_invariant (ops : List (Operation α)) (slots : (run ops).2.slots.length < 2 ^ 32)
    (few : ∀ i, removals (run ops).1 i < 2 ^ 32 - 1) : Invariant (run ops).1 (run ops).2 := by
  induction ops with
  | nil => exact initial_invariant
  | cons op earlier ih =>
    have before : Invariant (run earlier).1 (run earlier).2 := by
      apply ih
      · exact Nat.lt_of_le_of_lt (slots_perform _ op) slots
      · exact fun i => Nat.lt_of_le_of_lt (removals_cons _ _ i) (few i)
    exact perform_preserves before op slots few

end Scriptlet.HandleTable
