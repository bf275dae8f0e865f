import Scriptlet.Proofs.Program

/-!
What statements do, by recursion on the tree. A statement turns a store into another one, makes
calls, and ends normally, in a `return` or in a failure. A loop may run for ever, so what a
statement does is a relation: it relates a store to nothing if the statement does not end there.
-/

namespace Scriptlet

variable {α β : Type}

/-- What a script works on: its variables, and the value of the last full expression. -/
structure Store where
  scopes : ScopeStack
  result : String

inductive Flow where
  | normal
  | returned
  deriving DecidableEq, Repr, Inhabited

structure Effect (α : Type) where
  outcome : Except Fault.Cause α
  store : Store
  calls : Calls := []

/-- The effects that something may have on a store. -/
def Meaning (α : Type) : Type := Store → Effect α → Prop

namespace Effect

def Then (e : Effect α) (next : α → Effect β → Prop) (total : Effect β) : Prop :=
  match e.outcome with
  | .ok a => ∃ e', next a e' ∧ total = { e' with calls := e.calls ++ e'.calls }
  | .error cause => total = ⟨.error cause, e.store, e.calls⟩

def ofEvaluation (ev : Evaluation String) (σ : Store) : Effect String :=
  match ev.outcome with
  | .ok value => ⟨.ok value, { σ with result := value }, ev.calls⟩
  | .error cause => ⟨.error cause, σ, ev.calls⟩

/-- Leave a block, whatever happened in it: its variables are gone. Blocks are numbered with 32
bits, and one that has no number cannot be left without a fault. -/
def leaveBlock (id : BlockId) (depth : Nat) (e : Effect α) : Effect α where
  outcome := do
    let a ← e.outcome
    if depth + 1 < UInt32.size then return a else throw (e.store.scopes.refusal id)
  store := { e.store with scopes := e.store.scopes.truncate depth }
  calls := e.calls

theorem leaveBlock_ok {e : Effect α} {a : α} {depth : Nat} (out : e.outcome = .ok a) (id : BlockId)
    (small : depth + 1 < UInt32.size) : (e.leaveBlock id depth).outcome = .ok a := by
  rw [leaveBlock, out]
  exact if_pos small

theorem leaveBlock_refused {e : Effect α} {a : α} {depth : Nat} (out : e.outcome = .ok a)
    (id : BlockId) (large : ¬ depth + 1 < UInt32.size) :
    (e.leaveBlock id depth).outcome = .error (e.store.scopes.refusal id) := by
  rw [leaveBlock, out]
  exact if_neg large

theorem leaveBlock_error {e : Effect α} {cause : Fault.Cause} (out : e.outcome = .error cause)
    (id : BlockId) (depth : Nat) : (e.leaveBlock id depth).outcome = .error cause := by
  rw [leaveBlock, out]
  rfl

theorem then_pure (e : Effect α) : e.Then (fun a e' => e' = ⟨.ok a, e.store, []⟩) e := by
  obtain ⟨_ | a, store, calls⟩ := e
  · rfl
  · exact ⟨_, rfl, by simp⟩

theorem Then.of_pure {e total : Effect α}
    (h : e.Then (fun a e' => e' = ⟨.ok a, e.store, []⟩) total) : total = e := by
  obtain ⟨_ | a, store, calls⟩ := e
  · exact h
  · obtain ⟨_, rfl, rfl⟩ := h
    simp

/-- Calls made before stand in front of those made after. -/
theorem then_after {e : Effect α} {next : α → Effect β → Prop} {total : Effect β} (calls : Calls) :
    { e with calls := calls ++ e.calls }.Then next total ↔
      ∃ e', e.Then next e' ∧ total = { e' with calls := calls ++ e'.calls } := by
  obtain ⟨_ | a, store, more⟩ := e
  · simp [Then]
  · constructor
    · rintro ⟨e', h, rfl⟩
      exact ⟨_, ⟨e', h, rfl⟩, by simp⟩
    · rintro ⟨_, ⟨e', h, rfl⟩, rfl⟩
      exact ⟨e', h, by simp⟩

theorem then_assoc {γ : Type} {e : Effect α} {total : Effect γ} (next : α → Effect β → Prop)
    (last : β → Store → Effect γ → Prop) :
    (∃ e', e.Then next e' ∧ e'.Then (fun b => last b e'.store) total) ↔
      e.Then (fun a t => ∃ e', next a e' ∧ e'.Then (fun b => last b e'.store) t) total := by
  obtain ⟨cause | a, store, calls⟩ := e
  · simp [Then]
  · constructor
    · rintro ⟨_, ⟨e', h, rfl⟩, k⟩
      obtain ⟨t, later, rfl⟩ := (then_after calls).mp k
      exact ⟨t, ⟨e', h, later⟩, rfl⟩
    · rintro ⟨t, ⟨e', h, k⟩, rfl⟩
      exact ⟨_, ⟨e', h, rfl⟩, (then_after calls).mpr ⟨t, k, rfl⟩⟩

end Effect

namespace Meaning

instance : Monad Meaning where
  pure a := fun σ e => e = ⟨.ok a, σ, []⟩
  bind m f := fun σ e => ∃ e₁, m σ e₁ ∧ e₁.Then (fun a e₂ => f a e₁.store e₂) e

def when [Inhabited α] (exe : Bool) (m : Meaning α) : Meaning α :=
  if exe then m else pure default

@[simp] theorem when_true [Inhabited α] (m : Meaning α) : m.when true = m := rfl

@[simp] theorem when_false [Inhabited α] (m : Meaning α) : m.when false = pure default := rfl

theorem when_default [Inhabited α] (exe : Bool) :
    (pure default : Meaning α).when exe = pure default := by
  cases exe <;> rfl

theorem when_congr [Inhabited α] {exe : Bool} {m m' : Meaning α} (h : exe = true → m = m') :
    m.when exe = m'.when exe := by
  cases exe with
  | false => rfl
  | true => rw [h rfl]

instance : LawfulMonad Meaning := by
  refine LawfulMonad.mk' Meaning ?_ ?_ ?_
  · intro α m
    funext σ e
    refine propext ⟨?_, fun h => ⟨e, h, ?_⟩⟩
    · rintro ⟨e₁, h, total⟩
      exact total.of_pure ▸ h
    · exact Effect.then_pure e
  · intro α β a f
    funext σ e
    refine propext ⟨?_, fun h => ⟨_, rfl, e, h, rfl⟩⟩
    rintro ⟨_, rfl, e', h, rfl⟩
    exact h
  · intro α β γ m f g
    funext σ e
    refine propext ⟨?_, ?_⟩
    · rintro ⟨e₂, ⟨e₁, h, first⟩, second⟩
      exact ⟨e₁, h, (Effect.then_assoc _ _).mp ⟨e₂, first, second⟩⟩
    · rintro ⟨e₁, h, total⟩
      obtain ⟨e₂, first, second⟩ := (Effect.then_assoc _ _).mpr total
      exact ⟨e₂, ⟨e₁, h, first⟩, second⟩

theorem when_bind [Inhabited α] [Inhabited β] (exe : Bool) (m : Meaning α) (f : α → Meaning β) :
    (m >>= f).when exe = m.when exe >>= fun a => (f a).when exe := by
  cases exe with
  | true => rfl
  | false => simp

theorem when_map [Inhabited α] [Inhabited β] (exe : Bool) (m : Meaning α) {f : α → β}
    (h : f default = default) :
    (m >>= fun a => pure (f a)).when exe = m.when exe >>= fun a => pure (f a) := by
  cases exe with
  | true => rfl
  | false => simp [h]

def change (f : Store → Store) : Meaning Unit := fun σ e => e = ⟨.ok (), f σ, []⟩

def compute (r : Store → Except Fault.Cause α) : Meaning α := fun σ e => e = ⟨r σ, σ, []⟩

def andThen (m k : Meaning Flow) : Meaning Flow := do
  match ← m with
  | .normal => k
  | .returned => return .returned

theorem andThen_normal (m : Meaning Flow) : m.andThen (pure .normal) = m := by
  have same : ∀ flow : Flow, (match flow with
      | .normal => pure .normal
      | .returned => pure .returned : Meaning Flow) = pure flow := by
    intro flow
    cases flow <;> rfl
  unfold andThen
  simp only [same, bind_pure]

theorem normal_andThen (k : Meaning Flow) : (pure .normal : Meaning Flow).andThen k = k := by
  unfold andThen
  rw [pure_bind]

theorem when_andThen (exe : Bool) (m k : Meaning Flow) :
    (m.andThen k).when exe = (m.when exe).andThen (k.when exe) := by
  cases exe with
  | false => exact (normal_andThen _).symm
  | true => rfl

/-- Both branches are gone through, at most one of them executing. -/
theorem when_branch (exe p : Bool) (t e : Meaning Flow) :
    (if p then t else e).when exe = (t.when (exe && p)).andThen (e.when (exe && !p)) := by
  cases p with
  | true =>
    rw [if_pos rfl, Bool.and_true, Bool.not_true, Bool.and_false, when_false]
    exact (andThen_normal _).symm
  | false =>
    rw [if_neg (by simp), Bool.and_false, Bool.not_false, Bool.and_true, when_false]
    exact (normal_andThen _).symm

def enclosed (m : Meaning Flow) : Meaning Flow := fun σ e =>
  let (id, scopes) := σ.scopes.openBlock
  ∃ e', m { σ with scopes } e' ∧ e = e'.leaveBlock id σ.scopes.depth

/-- Again and again, until a turn says how to go on behind the loop. -/
inductive Repeats (turn : Meaning (Option Flow)) : Store → Effect Flow → Prop where
  | fails {σ σ' : Store} {cause : Fault.Cause} {calls : Calls} :
      turn σ ⟨.error cause, σ', calls⟩ → Repeats turn σ ⟨.error cause, σ', calls⟩
  | leaves {σ σ' : Store} {flow : Flow} {calls : Calls} :
      turn σ ⟨.ok (some flow), σ', calls⟩ → Repeats turn σ ⟨.ok flow, σ', calls⟩
  | again {σ σ' : Store} {calls : Calls} {e : Effect Flow} :
      turn σ ⟨.ok none, σ', calls⟩ → Repeats turn σ' e →
      Repeats turn σ { e with calls := calls ++ e.calls }

def turn (test : Meaning Bool) (body : Meaning Flow) (step : Meaning Unit) :
    Meaning (Option Flow) := do
  if ← test then
    match ← body with
    | .returned => return some .returned
    | .normal => do
      step
      return none
  else return some .normal

def loop (test : Meaning Bool) (body : Meaning Flow) (step : Meaning Unit) : Meaning Flow :=
  Repeats (turn test body step)

def loopOnce (test : Meaning Bool) (body : Meaning Flow) (step : Meaning Unit)
    (rest : Meaning Flow) : Meaning Flow := do
  if ← test then
    body.andThen do
      step
      rest
  else return .normal

theorem when_loopOnce (exe : Bool) (test : Meaning Bool) (body : Meaning Flow) (step : Meaning Unit)
    (rest : Meaning Flow) :
    (loopOnce test body step rest).when exe =
      test.when exe >>= fun goes => (body.andThen (step >>= fun _ => rest)).when goes := by
  cases exe with
  | true => rfl
  | false =>
    rw [when_false, when_false, pure_bind]
    rfl

theorem turn_bind (test : Meaning Bool) (body : Meaning Flow) (step : Meaning Unit)
    (rest : Meaning Flow) :
    (turn test body step >>= fun o =>
      match o with
      | none => rest
      | some flow => pure flow) = loopOnce test body step rest := by
  unfold turn loopOnce andThen
  rw [bind_assoc]
  congr 1
  funext b
  cases b with
  | false => simp
  | true =>
    rw [if_pos rfl, if_pos rfl, bind_assoc]
    congr 1
    funext flow
    cases flow <;> simp

section Loop

variable {test : Meaning Bool} {body : Meaning Flow} {step : Meaning Unit} {rest : Meaning Flow}
  {σ : Store} {e : Effect Flow}

/-- A loop takes one turn and then goes on as a loop. -/
theorem loop_unfold (h : loop test body step σ e)
    (loops : ∀ {σ e}, loop test body step σ e → rest σ e) :
    loopOnce test body step rest σ e := by
  rw [← turn_bind]
  cases h with
  | fails first => exact ⟨_, first, rfl⟩
  | leaves first => exact ⟨_, first, _, rfl, by simp⟩
  | again first later => exact ⟨_, first, _, loops later, rfl⟩

/-- What holds before a turn if it holds behind it, holds of a loop that ends. -/
theorem loop_least (h : loop test body step σ e)
    (closed : ∀ {σ e}, loopOnce test body step rest σ e → rest σ e) : rest σ e := by
  induction h with
  | fails first =>
    refine closed ?_
    rw [← turn_bind]
    exact ⟨_, first, rfl⟩
  | leaves first =>
    refine closed ?_
    rw [← turn_bind]
    exact ⟨_, first, _, rfl, by simp⟩
  | again first _ ih =>
    refine closed ?_
    rw [← turn_bind]
    exact ⟨_, first, _, ih, rfl⟩

end Loop

end Meaning

structure Library where
  functions : Table Callable
  natives : Natives

namespace Syntax

open Meaning

variable (lib : Library)

def Cond.value (c : Cond) : Meaning String := fun σ e =>
  e = .ofEvaluation (c.eval ⟨σ.scopes, lib.functions, lib.natives⟩) σ

theorem Cond.value_ok {lib : Library} {c : Cond} {σ : Store} {v : String} {calls : Calls}
    (h : c.eval ⟨σ.scopes, lib.functions, lib.natives⟩ = ⟨.ok v, calls⟩) :
    c.value lib σ ⟨.ok v, { σ with result := v }, calls⟩ := by
  unfold value
  rw [h]
  rfl

def test : Option Cond → Meaning Bool
  | none => return true
  | some c => do return Value.truthy (← c.value lib)

def bumped (scopes : ScopeStack) (name : String) (op : Operator) : Except Fault.Cause String :=
  match scopes.get? name with
  | some v => Value.bump op v
  | none => .error (.undefinedVariable name)

def Simple.exec : Simple → Meaning Unit
  | .assign name value => do
    let v ← value.value lib
    change fun σ => { σ with scopes := σ.scopes.assign name.text v }
  | .bump name op => do
    let v ← compute fun σ => bumped σ.scopes name.text op.1
    change fun σ => ⟨σ.scopes.assign name.text v, v⟩
  | .expr value => do
    let _ ← value.value lib

def Declaration.exec : Declaration → Meaning Unit
  | ⟨name, some value⟩ => do
    let v ← value.value lib
    change fun σ => { σ with scopes := σ.scopes.setLocal name.text v }
  | ⟨name, none⟩ => change fun σ => { σ with scopes := σ.scopes.setLocal name.text "" }

def declareAll : List Declaration → Meaning Unit
  | [] => return
  | d :: ds => do
    d.exec lib
    declareAll ds

def Init.exec : Init → Meaning Unit
  | .none => return
  | .simple x => x.exec lib
  | .declare first rest => declareAll lib (first :: rest)

def increment : Option Simple → Meaning Unit
  | none => return
  | some x => x.exec lib

mutual

def Stmt.exec {b : Bool} : Stmt b → Meaning Flow
  | .empty => return .normal
  | .block body => enclosed body.exec
  | .branch c t => do
    if Value.truthy (← c.value lib) then t.exec else return .normal
  | .branchElse c t e => do
    if Value.truthy (← c.value lib) then t.exec else e.exec
  | .loop init c step body => do
    init.exec lib
    loop (test lib c) body.exec (increment lib step)
  | .declare first rest => do
    declareAll lib (first :: rest)
    return .normal
  | .simple x => do
    x.exec lib
    return .normal
  | .ret none => do
    change fun σ => { σ with result := "" }
    return .returned
  | .ret (some value) => do
    let _ ← value.value lib
    return .returned

def Stmts.exec : Stmts → Meaning Flow
  | .nil => return .normal
  | .cons first rest => first.exec.andThen rest.exec

end

end Syntax

end Scriptlet
