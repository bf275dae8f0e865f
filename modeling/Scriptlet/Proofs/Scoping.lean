import Mathlib.Data.List.Induction
import Mathlib.Logic.Function.Iterate
import Scriptlet.Proofs.Containment
import Scriptlet.Proofs.Serials

/-!
A block from its opening to its closing. In between, variables are declared and changed in any
order, further blocks are opened and closed, and closings may be refused. Once the block has been
closed the stack is the one it was opened on, but for values of names that were written globally or
assigned while no block above the stack bound them. That the closing succeeds tells that the block
has stood all the time, since its serial comes up again only after the counter has gone round.
-/

namespace Scriptlet

namespace ScopeStack

variable {σ τ υ : ScopeStack} {names : String → Prop} {n : Nat}

/-! ### Serials in a row -/

theorem nextSerial_toNat (serial : UInt32) :
    (nextSerial serial).toNat = serial.toNat % (2 ^ 32 - 1) + 1 := by
  have bound := serial.toNat_lt
  by_cases last : serial.toNat + 1 < UInt32.size
  · have small : serial.toNat < 2 ^ 32 - 1 := Nat.lt_sub_of_add_lt last
    rw [toNat_nextSerial last, Nat.mod_eq_of_lt small]
  · have top : serial.toNat = 2 ^ 32 - 1 := by
      simp only [UInt32.size] at last
      omega
    have wraps : serial + 1 = 0 := by
      rw [← UInt32.toNat_inj, UInt32.toNat_add, top]
      rfl
    rw [nextSerial, if_pos wraps, top]
    rfl

/-- The serials after a given one all differ from it until the counter has gone round. -/
theorem iterate_nextSerial_ne {serial : UInt32} (pos : serial ≠ 0) (some : 0 < n)
    (few : n < 2 ^ 32 - 1) : nextSerial^[n] serial ≠ serial := by
  have bound := serial.toNat_lt
  have nonzero : serial.toNat ≠ 0 := fun zero => pos (UInt32.toNat_inj.mp zero)
  have counts : ∀ k, (nextSerial^[k] serial).toNat = (serial.toNat - 1 + k) % (2 ^ 32 - 1) + 1 := by
    intro k
    induction k with
    | zero =>
      rw [Function.iterate_zero_apply]
      omega
    | succ k ih =>
      rw [Function.iterate_succ_apply', nextSerial_toNat, ih]
      omega
  intro same
  have value := counts n
  rw [same] at value
  omega

theorem nextSerial_ne_zero (serial : UInt32) : nextSerial serial ≠ 0 := by
  intro zero
  have value := nextSerial_toNat serial
  rw [zero, UInt32.toNat_zero] at value
  omega

/-! ### Operations -/

inductive Operation where
  | openBlock
  | close (id : BlockId)
  | setLocal (name value : String)
  | setGlobal (name value : String)
  | assign (name value : String)
  deriving DecidableEq, Repr

def perform (σ : ScopeStack) : Operation → ScopeStack
  | .openBlock => σ.openBlock.2
  | .close id =>
    match σ.close id with
    | .ok closed => closed
    | .error _ => σ
  | .setLocal name value => σ.setLocal name value
  | .setGlobal name value => σ.setGlobal name value
  | .assign name value => σ.assign name value

def run (σ : ScopeStack) (ops : List Operation) : ScopeStack := ops.foldl perform σ

def openings (ops : List Operation) : Nat := ops.count .openBlock

theorem run_snoc (σ : ScopeStack) (ops : List Operation) (op : Operation) :
    σ.run (ops ++ [op]) = (σ.run ops).perform op := by
  simp [run]

theorem openings_snoc (ops : List Operation) (op : Operation) :
    openings (ops ++ [op]) = openings ops + if op = .openBlock then 1 else 0 := by
  rw [openings, openings, List.count_append, List.count_singleton]
  simp only [beq_iff_eq]

/-! ### Stacks too deep for ids -/

/-- An id holds a depth of 32 bits. Where more blocks are open than that can count, none is closed
any more. -/
theorem deep_perform (deep : 2 ^ 32 ≤ τ.depth) (op : Operation) :
    2 ^ 32 ≤ (τ.perform op).depth := by
  cases op with
  | openBlock => exact Nat.le_succ_of_le deep
  | close id =>
    cases closed : τ.close id with
    | ok υ =>
      obtain ⟨top, outer, blocks, -, number, -⟩ := close_eq_ok.mp closed
      have depth : τ.depth = outer.length + 1 := congrArg List.length blocks
      have bound := id.depth.toNat_lt
      omega
    | error cause =>
      simp only [perform, closed]
      exact deep
  | setLocal name value => exact (depth_eq (τ.serials_setLocal name value)).symm ▸ deep
  | setGlobal name value => exact deep
  | assign name value => exact (depth_eq (τ.serials_assign name value)).symm ▸ deep

theorem deep_run (deep : 2 ^ 32 ≤ τ.depth) (ops : List Operation) :
    2 ^ 32 ≤ (τ.run ops).depth := by
  induction ops generalizing τ with
  | nil => exact deep
  | cons op ops ih => exact ih (deep_perform deep op)

theorem depth_lt_of_close {ops : List Operation} {id : BlockId}
    (closed : (τ.run ops).close id = .ok υ) : τ.depth < 2 ^ 32 := by
  refine Nat.lt_of_not_le fun deep => ?_
  obtain ⟨top, outer, blocks, -, number, -⟩ := close_eq_ok.mp closed
  have depth : (τ.run ops).depth = outer.length + 1 := congrArg List.length blocks
  have still := deep_run deep ops
  have bound := id.depth.toNat_lt
  omega

/-! ### While the block stands, and after -/

/-- What stands at a depth, if anything, was given one of the first `n` serials after this one. -/
def Replaced (τ : ScopeStack) (depth : Nat) (serial : UInt32) (n : Nat) : Prop :=
  ∀ above later below, τ.serials = above ++ later :: below → below.length = depth →
    ∃ k, 0 < k ∧ k ≤ n ∧ later = nextSerial^[k] serial

section Replaced

variable {depth : Nat} {serial : UInt32}

theorem replaced_of_low (low : τ.depth ≤ depth) : τ.Replaced depth serial n := by
  intro above later below split length
  have total := congrArg List.length split
  rw [length_serials, List.length_append, List.length_cons] at total
  omega

theorem Replaced.closes (h : τ.Replaced depth serial n) (suffix : υ.serials <:+ τ.serials) :
    υ.Replaced depth serial n := by
  obtain ⟨closed, rest⟩ := suffix
  intro above later below split length
  refine h (closed ++ above) later below ?_ length
  rw [← rest, split, List.append_assoc]

theorem Replaced.opens (h : τ.Replaced depth serial n)
    (serials : υ.serials = nextSerial^[n + 1] serial :: τ.serials) :
    υ.Replaced depth serial (n + 1) := by
  intro above later below split length
  rw [serials] at split
  cases above with
  | nil =>
    obtain ⟨rfl, rfl⟩ := List.cons.inj split
    exact ⟨n + 1, Nat.succ_pos n, Nat.le_refl _, rfl⟩
  | cons top above =>
    obtain ⟨k, pos, few, given⟩ := h above later below (List.cons.inj split).2 length
    exact ⟨k, pos, Nat.le_succ_of_le few, given⟩

end Replaced

theorem Reassigned.setGlobal (σ : ScopeStack) {name : String} (value : String)
    (named : names name) : σ.Reassigned names (σ.setGlobal name value) := by
  refine ⟨.refl _, fun key => ?_⟩
  simp only [ScopeStack.setGlobal, Table.contains, Table.get?_insert]
  by_cases same : key = name
  · subst same
    exact ⟨fun _ => by simp, fun _ => named⟩
  · simp [same]

/-- The stack `n` openings after a block was opened on `σ`. Either there are still blocks over `σ`,
and in `σ` itself these names alone have been written, or what stands in the place of the block, if
anything, was opened later. -/
structure Since (names : String → Prop) (σ : ScopeStack) (n : Nat) (τ : ScopeStack) : Prop where
  serial : τ.serial = nextSerial^[n] σ.openBlock.1.serial
  place : (σ.depth < τ.depth ∧ σ.Reassigned names (τ.truncate σ.depth)) ∨
    τ.Replaced σ.depth σ.openBlock.1.serial n

/-- What an operation writes below a depth: a name that it writes globally, or assigns while no
block above the depth binds it. -/
def Writes (τ : ScopeStack) (depth : Nat) (name : String) : Operation → Prop
  | .setGlobal key _ => key = name
  | .assign key _ => key = name ∧ ¬ τ.Hides depth name
  | _ => False

namespace Since

theorem opened_self (σ : ScopeStack) : σ.Since names 0 σ.openBlock.2 where
  serial := rfl
  place := by
    refine .inl ⟨by simp, ?_⟩
    have tables := tables_truncate_openBlock (σ := σ) (Nat.le_refl _)
    rw [truncate_depth] at tables
    exact (Reassigned.refl σ).of_tables tables

theorem openBlock (h : σ.Since names n τ) : σ.Since names (n + 1) τ.openBlock.2 := by
  have serial : τ.openBlock.2.serial = nextSerial^[n + 1] σ.openBlock.1.serial := by
    rw [Function.iterate_succ_apply', ← h.serial]
    rfl
  refine ⟨serial, h.place.imp ?_ fun replaced => ?_⟩
  · rintro ⟨deeper, below⟩
    refine ⟨by rw [depth_openBlock]; omega, below.of_tables ?_⟩
    exact tables_truncate_openBlock (Nat.le_of_lt deeper)
  · refine replaced.opens ?_
    rw [← serial]
    rfl

theorem close {id : BlockId} (h : σ.Since names n τ) (closed : τ.close id = .ok υ) :
    σ.Since names n υ := by
  obtain ⟨top, outer, blocks, -, -, rfl⟩ := close_eq_ok.mp closed
  refine ⟨h.serial, ?_⟩
  by_cases deeper : σ.depth < ({ τ with blocks := outer } : ScopeStack).depth
  · refine h.place.imp ?_ fun replaced => ?_
    · rintro ⟨-, below⟩
      exact ⟨deeper, below.of_tables (truncate_close closed (Nat.le_of_lt deeper))⟩
    · refine replaced.closes ?_
      simp only [serials, blocks, List.map_cons]
      exact List.suffix_cons _ _
  · exact .inr (replaced_of_low (Nat.le_of_not_lt deeper))

/-- An operation that leaves the blocks standing and writes these names only. -/
theorem write (h : σ.Since names n τ) (same : υ.numbering = τ.numbering)
    (written : σ.depth < τ.depth →
      (τ.truncate σ.depth).Reassigned names (υ.truncate σ.depth)) :
    σ.Since names n υ := by
  obtain ⟨serial, serials⟩ := Prod.mk.inj same
  refine ⟨serial.trans h.serial, h.place.imp ?_ fun replaced => ?_⟩
  · rintro ⟨deeper, below⟩
    exact ⟨depth_eq serials ▸ deeper, below.trans (written deeper)⟩
  · exact replaced.closes (serials ▸ List.suffix_refl _)

theorem perform (h : σ.Since names n τ) (op : Operation)
    (named : ∀ name, τ.Writes σ.depth name op → names name) :
    σ.Since names (n + if op = .openBlock then 1 else 0) (τ.perform op) := by
  cases op with
  | openBlock => exact h.openBlock
  | close id =>
    cases closed : τ.close id with
    | ok υ =>
      simp only [ScopeStack.perform, closed]
      exact h.close closed
    | error cause =>
      simp only [ScopeStack.perform, closed]
      exact h
  | setLocal name value =>
    refine h.write (τ.numbering_setLocal name value) fun deeper => ?_
    exact (Reassigned.refl _).of_tables (truncate_setLocal deeper name value)
  | setGlobal name value =>
    exact h.write rfl fun _ => .setGlobal _ value (named name rfl)
  | assign name value =>
    refine h.write (τ.numbering_assign name value) fun deeper => ?_
    rcases truncate_assign (Nat.le_of_lt deeper) name value with same | ⟨free, reached⟩
    · exact (Reassigned.refl _).of_tables same
    · exact (Reassigned.assign _ value (named name ⟨rfl, free⟩)).of_tables reached

/-- What holds along a whole run. -/
theorem run (σ : ScopeStack) (ops : List Operation)
    (named : ∀ earlier op later name, ops = earlier ++ op :: later →
      (σ.openBlock.2.run earlier).Writes σ.depth name op → names name) :
    σ.Since names (openings ops) (σ.openBlock.2.run ops) := by
  induction ops using List.reverseRecOn with
  | nil => exact opened_self σ
  | append_singleton ops op ih =>
    have before := ih fun earlier op' later name split =>
      named earlier op' (later ++ [op]) name (by rw [split]; simp)
    rw [openings_snoc, run_snoc]
    exact before.perform op fun name => named ops op [] name rfl

/-- If the block can still be closed, it has stood all the time. -/
theorem reassigned (h : σ.Since names n τ) (room : σ.depth < 2 ^ 32) (few : n < 2 ^ 32 - 1)
    (closed : τ.close σ.openBlock.1 = .ok υ) : σ.Reassigned names υ := by
  obtain ⟨top, outer, blocks, serial, number, rfl⟩ := close_eq_ok.mp closed
  have depth : σ.openBlock.1.depth.toNat = (σ.depth + 1) % 2 ^ 32 := UInt32.toNat_ofNat'
  have deep : τ.depth = outer.length + 1 := congrArg List.length blocks
  rcases h.place with ⟨deeper, below⟩ | replaced
  · have level : outer.length = σ.depth := by omega
    have split : τ.blocks = [top] ++ outer := blocks
    have cut := truncate_append split
    rw [level] at cut
    exact below.of_tables cut.symm
  · have level : (outer.map Block.serial).length = σ.depth := by
      rw [List.length_map]
      omega
    have split : τ.serials = [] ++ top.serial :: outer.map Block.serial := by
      rw [serials, blocks]
      rfl
    obtain ⟨k, pos, le, later⟩ := replaced [] _ _ split level
    have other := iterate_nextSerial_ne (nextSerial_ne_zero σ.serial) pos (by omega)
    exact absurd (later.symm.trans serial) other

end Since

/-! ### Global names -/

/-- A name that is bound globally stays so. -/
theorem contains_globals_perform {name : String} (bound : τ.globals.contains name = true)
    (op : Operation) : (τ.perform op).globals.contains name = true := by
  have set : ∀ key value, (τ.setGlobal key value).globals.contains name = true := by
    intro key value
    have any : τ.Reassigned (fun _ => True) (τ.setGlobal key value) := .setGlobal τ value trivial
    exact (any.globals name).1 bound
  cases op with
  | openBlock => exact bound
  | close id =>
    cases closed : τ.close id with
    | ok υ =>
      obtain ⟨top, outer, -, -, -, rfl⟩ := close_eq_ok.mp closed
      simp only [perform, closed]
      exact bound
    | error cause =>
      simp only [perform, closed]
      exact bound
  | setLocal key value =>
    simp only [perform, ScopeStack.setLocal]
    split
    · exact bound
    · exact set key value
  | setGlobal key value => exact set key value
  | assign key value =>
    have any : τ.Reassigned (fun _ => True) (τ.assign key value) := .assign τ value trivial
    exact (any.globals name).1 bound

theorem contains_globals_run {name : String} (ops : List Operation)
    (bound : τ.globals.contains name = true) : (τ.run ops).globals.contains name = true := by
  induction ops generalizing τ with
  | nil => exact bound
  | cons op ops ih => exact ih (contains_globals_perform bound op)

theorem assignIn_eq_none {name value : String} {blocks : List Block}
    (free : blocks.findSome? (·.bindings.get? name) = none) :
    assignIn name value blocks = none := by
  induction blocks with
  | nil => rfl
  | cons block outer ih =>
    rw [List.findSome?_cons] at free
    cases bound : block.bindings.get? name with
    | some _ => simp [bound] at free
    | none =>
      simp only [bound] at free
      simp [assignIn, Table.contains, bound, ih free]

/-- A name that is bound nowhere becomes global when it is assigned. -/
theorem contains_globals_assign {name : String} (unbound : τ.get? name = none) (value : String) :
    (τ.assign name value).globals.contains name = true := by
  obtain ⟨free, -⟩ := Option.or_eq_none_iff.mp unbound
  simp [assign, assignIn_eq_none free, setGlobal, Table.contains, Table.get?_insert]

/-! ### From opening to closing -/

/-- A block is opened, fewer than `2 ^ 32 - 1` further ones are opened while it stands, and it is
closed. Then the blocks are those of the stack, each with its names, and no global name is lost. A
name that is never written globally, and assigned only while the block or one above it binds it, has
its value in every table, and so its meaning. A name that was assigned while it was bound nowhere is
bound globally. -/
theorem run_block_scoped (σ τ : ScopeStack) (ops : List Operation)
    (few : openings ops < 2 ^ 32 - 1)
    (closed : (σ.openBlock.2.run ops).close σ.openBlock.1 = .ok τ) :
    List.Forall₂ (fun old new => new.serial = old.serial ∧
        ∀ name, new.bindings.contains name = old.bindings.contains name) σ.blocks τ.blocks ∧
    (∀ name, σ.globals.contains name = true → τ.globals.contains name = true) ∧
    (∀ name, (∀ value, .setGlobal name value ∉ ops) →
      (∀ earlier value later, ops = earlier ++ .assign name value :: later →
        (σ.openBlock.2.run earlier).Hides σ.depth name) →
      List.Forall₂ (fun old new => new.bindings.get? name = old.bindings.get? name)
          σ.blocks τ.blocks ∧
        τ.globals.get? name = σ.globals.get? name ∧ τ.get? name = σ.get? name) ∧
    ∀ earlier name value later, ops = earlier ++ .assign name value :: later →
      (σ.openBlock.2.run earlier).get? name = none → τ.globals.contains name = true := by
  let Written (name : String) : Prop := ∃ earlier op later, ops = earlier ++ op :: later ∧
    (σ.openBlock.2.run earlier).Writes σ.depth name op
  have since : σ.Since Written (openings ops) (σ.openBlock.2.run ops) :=
    .run σ ops fun earlier op later name split writes => ⟨earlier, op, later, split, writes⟩
  have room : σ.depth < 2 ^ 32 := Nat.lt_of_succ_lt (depth_lt_of_close closed)
  have kept : σ.Reassigned Written τ := since.reassigned room few closed
  refine ⟨?_, fun name => (kept.globals name).1, ?_, ?_⟩
  · exact kept.blocks.imp fun old new same => ⟨same.1, fun name => (same.2 name).1⟩
  · intro name neverGlobal hidden
    have untouched : ¬ Written name := by
      rintro ⟨earlier, op, later, split, writes⟩
      cases op with
      | openBlock | close | setLocal => exact writes
      | setGlobal key value =>
        obtain rfl : key = name := writes
        exact neverGlobal value (by rw [split]; simp)
      | assign key value =>
        obtain ⟨rfl, free⟩ := writes
        exact free (hidden earlier value later split)
    refine ⟨?_, ?_, ?_⟩
    · exact kept.blocks.imp fun old new same => of_not_not fun differs =>
        untouched ((same.2 name).2 differs)
    · exact of_not_not fun differs => untouched ((kept.globals name).2 differs)
    · exact of_not_not fun differs => untouched (kept.get? differs)
  · intro earlier name value later split unbound
    have through : σ.openBlock.2.run ops =
        ((σ.openBlock.2.run earlier).assign name value).run later := by
      rw [split]
      simp [run, perform]
    obtain ⟨top, outer, -, -, -, rfl⟩ := close_eq_ok.mp closed
    have assigned := contains_globals_assign unbound value
    have bound := contains_globals_run later assigned
    rwa [← through] at bound

/-- The name `x` is declared in the block and assigned in another one above it, `fresh` is assigned
where it is bound nowhere, and one closing is refused. -/
theorem run_block_scoped_shadowed :
    let σ : ScopeStack :=
      { globals := Table.insert {} "x" "0", serial := 7, blocks := [⟨7, Table.insert {} "y" "1"⟩] }
    let ops : List Operation :=
      [.setLocal "x" "1", .openBlock, .assign "x" "2", .close ⟨2, 8⟩, .close ⟨3, 9⟩,
        .assign "fresh" "3"]
    ∃ τ, (σ.openBlock.2.run ops).close σ.openBlock.1 = .ok τ ∧
      (∀ name, σ.globals.contains name = true → τ.globals.contains name = true) ∧
      τ.get? "x" = some "0" ∧ τ.globals.contains "fresh" = true := by
  intro σ ops
  have closes : ((σ.openBlock.2.run ops).close σ.openBlock.1).toOption.isSome = true := by decide
  cases closed : (σ.openBlock.2.run ops).close σ.openBlock.1 with
  | error cause =>
    rw [closed] at closes
    cases closes
  | ok τ =>
    obtain ⟨-, globals, same, fresh⟩ := run_block_scoped σ τ ops (by decide) closed
    have hidden : ∀ earlier value later, ops = earlier ++ .assign "x" value :: later →
        (σ.openBlock.2.run earlier).Hides σ.depth "x" := by
      intro earlier value later split
      have place : ops[earlier.length]? = some (.assign "x" value) := by simp [split]
      have front : earlier = ops.take earlier.length := by rw [split, List.take_left]
      have third : earlier.length = 2 :=
        match earlier.length, place with
        | 2, _ => rfl
        | 0, place | 1, place | 3, place | 4, place | 5, place | _ + 6, place => by
          simp [ops] at place
      rw [front, third]
      exact ⟨⟨8, Table.insert {} "x" "1"⟩, by decide, by decide⟩
    refine ⟨τ, rfl, globals, ?_, ?_⟩
    · exact (same "x" (by simp [ops]) hidden).2.2
    · exact fresh [.setLocal "x" "1", .openBlock, .assign "x" "2", .close ⟨2, 8⟩, .close ⟨3, 9⟩]
        "fresh" "3" [] rfl (by decide)

end ScopeStack

end Scriptlet
