import Scriptlet.Manager
import Scriptlet.Proofs.HandleMap
import Scriptlet.Proofs.Renaming

/-!
A host in dialogue with the sessions of a manager. The host evaluates scripts, makes requests, and
closes blocks by the ids that the session gave it. All sessions draw their serials from one counter,
so an invariant of the whole manager ties the counter to the number of blocks opened so far, and
every id and every open block of any session to serials that the counter has passed.
-/

namespace Scriptlet

/-! ### Handles -/

namespace HandleTable

variable {α : Type} {t : HandleTable α} {h k : Handle} {a b : α}

/-- Writing under a live handle changes what is stored there, and nothing else. -/
theorem get?_set (found : t.get? h = some a) (b : α) (k : Handle) :
    (t.set h b).get? k = if k = h then some b else t.get? k := by
  have written := set_written found b
  have slot := get?_eq_some.mp found
  by_cases same : k = h
  · rw [if_pos same, get?_eq_some, same, written.self]
  · rw [if_neg same]
    ext c
    rw [get?_eq_some, get?_eq_some]
    by_cases index : k.index = h.index
    · have generation : h.generation ≠ k.generation :=
        fun equal => same (Handle.ext index equal.symm)
      rw [index, written.self, slot]
      simp [generation]
    · rw [written.of_ne index]

theorem get?_of_remove (found : (t.remove h).2.get? k = some b) : t.get? k = some b := by
  cases live : t.get? h with
  | none => simpa [remove, live] using found
  | some a =>
    have written := (remove_emptied live).written
    rw [get?_eq_some] at found ⊢
    by_cases index : k.index = h.index
    · simp [index, written.self] at found
    · rwa [written.of_ne index] at found

theorem get?_of_insertWith {make : Handle → α} (found : (t.insertWith make).2.get? k = some b) :
    (∃ h, b = make h) ∨ t.get? k = some b := by
  rw [get?_eq_some] at found
  unfold insertWith at found
  split at found
  · rename_i index free _
    simp only [List.getElem?_set] at found
    split at found
    · split at found
      · obtain ⟨-, value⟩ := Slot.mk.inj (Option.some.inj found)
        exact .inl ⟨_, (Option.some.inj value).symm⟩
      · cases found
    · exact .inr (get?_eq_some.mpr found)
  · simp only [List.getElem?_append] at found
    split at found
    · exact .inr (get?_eq_some.mpr found)
    · rcases List.mem_singleton.mp (List.mem_of_getElem? found) with slot
      obtain ⟨-, value⟩ := Slot.mk.inj slot
      exact .inl ⟨_, Option.some.inj value⟩

end HandleTable

/-! ### Operations -/

variable {H : Type}

namespace Manager

def session? (m : Manager H) (id : Handle) : Option Session := (m.seats.get? id).map m.restore

def evalOpens (m : Manager H) (fuel : Nat) (id : Handle) (enclosed : Bool)
    (script : String) : Nat :=
  match m.session? id with
  | none => 0
  | some s => s.evalOpens m.host fuel m.state enclosed script

def requestOpens (m : Manager H) (id : Handle) (r : Request) : Nat :=
  match m.session? id with
  | none => 0
  | some s => s.scopes.opened (s.answer r).2.1.scopes

end Manager

/-- The host's side of the sessions: beside the manager, the ids of the blocks it has opened on each
session, in order, and the number of blocks opened on all of them. -/
structure Dialogue (H : Type) where
  manager : Manager H
  given : Handle → List BlockId := fun _ => []
  opened : Nat := 0

namespace Dialogue

inductive Operation where
  | eval (enclosed : Bool) (script : String)
  | request (r : Request) (noBlock : r.namesNoBlock = true)
  /-- Close the block whose id the session gave at this turn. -/
  | close (turn : Nat)

inductive Answer where
  | value (r : Except Fault String)
  | reply (r : Request) (a : Except Fault r.Answer)
  | closing (r : Except Fault (Except Fault.Cause Unit))
  | nothing

def Answer.ids : Answer → List BlockId
  | .reply .openBlock (.ok id) => [id]
  | _ => []

def note (d : Dialogue H) (id : Handle) (answer : Answer) (manager : Manager H) (opens : Nat) :
    Answer × Dialogue H :=
  (answer,
    { manager
      given := fun k => if k = id then d.given k ++ answer.ids else d.given k
      opened := d.opened + opens })

def operate (d : Dialogue H) (fuel : Nat) (id : Handle) : Operation → Option (Answer × Dialogue H)
  | .eval enclosed script =>
    (d.manager.eval fuel id enclosed script).map fun (r, manager) =>
      d.note id (.value r) manager (d.manager.evalOpens fuel id enclosed script)
  | .request r _ =>
    let (a, manager) := d.manager.request id r
    some (d.note id (.reply r a) manager (d.manager.requestOpens id r))
  | .close turn =>
    match (d.given id)[turn]? with
    | some block =>
      let (r, manager) := d.manager.request id (.closeBlock block)
      some (d.note id (.closing r) manager (d.manager.requestOpens id (.closeBlock block)))
    | none => some (d.note id .nothing d.manager 0)

def run (fuel : Nat) : List (Handle × Operation) → Dialogue H →
    Option (List (Handle × Answer) × Dialogue H)
  | [], d => some ([], d)
  | (id, op) :: rest, d => do
    let (answer, d) ← d.operate fuel id op
    let (answers, d) ← run fuel rest d
    return ((id, answer) :: answers, d)

/-- The dialogues that a host can come to: beside the operations it opens and closes sessions and
changes tables of its own, and lets sessions do other work. -/
inductive Reached : Dialogue H → Prop where
  | new (host : Host H) (state : H) (limits : Limits) (globals : Shelf (Table String))
      (functions : Shelf (Table Callable)) :
      Reached { manager := { host, state, limits, globals, functions } }
  | operate {d d' : Dialogue H} {fuel : Nat} {id : Handle} {op : Operation} {answer : Answer} :
      Reached d → d.operate fuel id op = some (answer, d') → Reached d'
  | openSession {d : Dialogue H} (globals functions : Option Nat) : Reached d →
      Reached { d with manager := (d.manager.openSession globals functions).2 }
  | closeSession {d : Dialogue H} (id : Handle) : Reached d →
      Reached { d with manager := (d.manager.closeSession id).2 }
  | tables {d : Dialogue H} (globals : Shelf (Table String)) (functions : Shelf (Table Callable))
      (state : H) : Reached d →
      Reached { d with manager := { d.manager with globals, functions, state } }
  | work {d : Dialogue H} {id : Handle} {seat : Seat} {s : Session} {n : Nat} (state : H) :
      Reached d → d.manager.seats.get? id = some seat →
      ScopeStack.Course n (d.manager.restore seat).scopes s.scopes →
      Reached
        { d with
          manager := { d.manager.store id seat s with state }
          opened := d.opened + n }

/-! ### What an operation does -/

open ScopeStack

section Operate

variable {d d' : Dialogue H} {fuel : Nat} {id : Handle} {op : Operation} {answer : Answer}

structure Effect (d d' : Dialogue H) (id : Handle) (seat : Seat) (s : Session) (n : Nat) :
    Prop where
  found : d.manager.seats.get? id = some seat
  course : Course n (d.manager.restore seat).scopes s.scopes
  manager : ∃ state, d'.manager = { d.manager.store id seat s with state }
  given : ∀ k, ∃ more, d'.given k = d.given k ++ more ∧ (k ≠ id → more = []) ∧
    ∀ block ∈ more, block.serial = s.scopes.serial
  opened : d'.opened = d.opened + n

def Affects (d d' : Dialogue H) (id : Handle) : Prop :=
  d' = d ∨ ∃ seat s n, Effect d d' id seat s n

theorem given_note (d : Dialogue H) (id : Handle) (answer : Answer) (manager : Manager H)
    (opens : Nat) (k : Handle) {serial : UInt32}
    (ids : ∀ block ∈ answer.ids, block.serial = serial) :
    ∃ more, (d.note id answer manager opens).2.given k = d.given k ++ more ∧
      (k ≠ id → more = []) ∧ ∀ block ∈ more, block.serial = serial := by
  by_cases same : k = id
  · exact ⟨answer.ids, by simp [note, same], fun other => absurd same other, ids⟩
  · exact ⟨[], by simp [note, same], fun _ => rfl, by simp⟩

theorem note_nothing (d : Dialogue H) (id : Handle) {answer : Answer} (none : answer.ids = []) :
    (d.note id answer d.manager 0).2 = d := by
  obtain ⟨manager, given, opened⟩ := d
  simp [note, none]

theorem eval_affects {enclosed : Bool} {script : String} {r : Except Fault String}
    {manager : Manager H} (h : d.manager.eval fuel id enclosed script = some (r, manager)) :
    Affects d (d.note id (.value r) manager (d.manager.evalOpens fuel id enclosed script)).2 id := by
  unfold Manager.eval Manager.work at h
  unfold Manager.evalOpens Manager.session?
  cases found : d.manager.seats.get? id with
  | none =>
    rw [found] at h
    obtain ⟨rfl, rfl⟩ := Prod.mk.inj (Option.some.inj h)
    exact .inl (note_nothing d id rfl)
  | some seat =>
    rw [found] at h
    obtain ⟨fin, ended, heq⟩ := Option.map_eq_some_iff.mp h
    obtain ⟨rfl, rfl⟩ := Prod.mk.inj heq
    refine .inr ⟨seat, fin.session, _, found, Session.eval_course ended, ⟨_, rfl⟩, ?_, rfl⟩
    exact fun k => given_note d id _ _ _ k (by simp [Answer.ids])

theorem request_affects (d : Dialogue H) (id : Handle) (r : Request) (answer : Answer)
    (ids : ∀ block ∈ answer.ids, ∃ seat, d.manager.seats.get? id = some seat ∧
      block.serial = ((d.manager.restore seat).answer r).2.1.scopes.serial) :
    Affects d (d.note id answer (d.manager.request id r).2 (d.manager.requestOpens id r)).2 id := by
  unfold Manager.request Manager.requestOpens Manager.session?
  cases found : d.manager.seats.get? id with
  | none =>
    refine .inl (note_nothing d id ?_)
    refine List.eq_nil_iff_forall_not_mem.mpr fun block mem => ?_
    obtain ⟨seat, absent, _⟩ := ids block mem
    cases found.symm.trans absent
  | some seat =>
    refine .inr ⟨seat, ((d.manager.restore seat).answer r).2.1, _, found,
      .of_turns (Machine.answer_turns _ r), ⟨_, rfl⟩, ?_, rfl⟩
    refine fun k => given_note d id answer _ _ k fun block mem => ?_
    obtain ⟨seat', present, serial⟩ := ids block mem
    obtain rfl := Option.some.inj (found.symm.trans present)
    exact serial

/-- The id given for a block is that of the block just opened. -/
theorem ids_reply (m : Manager H) (id : Handle) (r : Request) (block : BlockId)
    (mem : block ∈ (Answer.reply r (m.request id r).1).ids) :
    ∃ seat, m.seats.get? id = some seat ∧
      block.serial = ((m.restore seat).answer r).2.1.scopes.serial := by
  unfold Manager.request at mem
  cases found : m.seats.get? id with
  | none =>
    rw [found] at mem
    cases r <;> cases mem
  | some seat =>
    rw [found] at mem
    cases r with
    | openBlock =>
      obtain rfl := List.mem_singleton.mp mem
      exact ⟨seat, rfl, rfl⟩
    | _ => cases mem

theorem operate_affects (h : d.operate fuel id op = some (answer, d')) : Affects d d' id := by
  cases op with
  | eval enclosed script =>
    obtain ⟨⟨r, manager⟩, evaluated, noted⟩ := Option.map_eq_some_iff.mp h
    obtain rfl := (Prod.mk.inj noted).2
    exact eval_affects evaluated
  | request r noBlock =>
    obtain ⟨-, rfl⟩ := Prod.mk.inj (Option.some.inj h)
    exact request_affects d id r _ (ids_reply d.manager id r)
  | close turn =>
    rw [operate] at h
    split at h
    · obtain ⟨-, rfl⟩ := Prod.mk.inj (Option.some.inj h)
      exact request_affects d id _ _ (by simp [Answer.ids])
    · obtain ⟨-, rfl⟩ := Prod.mk.inj (Option.some.inj h)
      exact .inl (note_nothing d id rfl)

end Operate

/-! ### The counter -/

/-- The counter has counted every block, and has passed every serial in use. -/
structure Sound (d : Dialogue H) : Prop where
  counter : d.manager.serial.toNat = d.opened
  blocks : ∀ id seat, d.manager.seats.get? id = some seat →
    ∀ serial ∈ seat.session.scopes.serials, serial.toNat ≤ d.opened
  given : ∀ id, ∀ block ∈ d.given id, block.serial.toNat ≤ d.opened

namespace Sound

variable {d d' : Dialogue H} {id : Handle} {seat : Seat} {s : Session} {n : Nat}

theorem numbered (sound : Sound d) (found : d.manager.seats.get? id = some seat) :
    (d.manager.restore seat).scopes.Numbered := by
  intro serial mem
  have := sound.blocks id seat found serial mem
  have := sound.counter
  simp only [Manager.restore]
  omega

theorem work_preserves (sound : Sound d) (effect : Effect d d' id seat s n)
    (few : d'.opened < 2 ^ 32) : Sound d' := by
  obtain ⟨state, manager⟩ := effect.manager
  have opened := effect.opened
  have start : (d.manager.restore seat).scopes.serial.toNat = d.opened := sound.counter
  have total := effect.course.toNat_serial (by omega)
  have numbered := effect.course.numbered (by omega) (sound.numbered effect.found)
  have counter : s.scopes.serial.toNat = d'.opened := by omega
  refine ⟨?_, ?_, ?_⟩
  · rw [manager]
    exact counter
  · intro k other found serial mem
    rw [manager] at found
    simp only [Manager.store, HandleTable.get?_set effect.found] at found
    split at found
    · obtain rfl := Option.some.inj found
      exact counter ▸ numbered serial mem
    · have := sound.blocks k other found serial mem
      omega
  · intro k block mem
    obtain ⟨more, given, _, latest⟩ := effect.given k
    rw [given] at mem
    rcases List.mem_append.mp mem with old | new
    · have := sound.given k block old
      omega
    · have same := congrArg UInt32.toNat (latest block new)
      omega

end Sound

theorem Affects.opened_le {d d' : Dialogue H} {id : Handle} (h : Affects d d' id) :
    d.opened ≤ d'.opened := by
  rcases h with rfl | ⟨seat, s, n, effect⟩
  · exact Nat.le_refl _
  · rw [effect.opened]
    exact Nat.le_add_right _ _

theorem run_cons {fuel : Nat} {id : Handle} {op : Operation} {rest : List (Handle × Operation)}
    {d e : Dialogue H} {answers : List (Handle × Answer)} :
    run fuel ((id, op) :: rest) d = some (answers, e) ↔
      ∃ answer mid later, d.operate fuel id op = some (answer, mid) ∧
        run fuel rest mid = some (later, e) ∧ answers = (id, answer) :: later := by
  simp only [run, Option.bind_eq_bind, Option.bind_eq_some_iff, Option.pure_def,
    Option.some.injEq, Prod.mk.injEq]
  constructor
  · rintro ⟨⟨answer, mid⟩, operated, ⟨later, last⟩, ran, rfl, rfl⟩
    exact ⟨answer, mid, later, operated, ran, rfl⟩
  · rintro ⟨answer, mid, later, operated, ran, rfl⟩
    exact ⟨(answer, mid), operated, (later, e), ran, rfl, rfl⟩

theorem opened_le_of_run {fuel : Nat} {ops : List (Handle × Operation)} {d e : Dialogue H}
    {answers : List (Handle × Answer)} (h : run fuel ops d = some (answers, e)) :
    d.opened ≤ e.opened := by
  induction ops generalizing d answers with
  | nil =>
    obtain ⟨-, rfl⟩ := Prod.mk.inj (Option.some.inj h)
    exact Nat.le_refl _
  | cons op rest ih =>
    obtain ⟨answer, mid, later, operated, ran, -⟩ := run_cons.mp h
    exact Nat.le_trans (operate_affects operated).opened_le (ih ran)

/-- Until the counter wraps around, every dialogue that a host can come to is sound. -/
theorem Reached.sound {d : Dialogue H} (h : Reached d) (few : d.opened < 2 ^ 32) : Sound d := by
  induction h with
  | new host state limits globals functions =>
    refine ⟨rfl, ?_, by simp⟩
    intro id seat found
    cases HandleTable.get?_eq_some.mp found
  | operate _ operated ih =>
    have affects := operate_affects operated
    have le := affects.opened_le
    have sound := ih (by omega)
    rcases affects with rfl | ⟨seat, s, n, effect⟩
    · exact sound
    · exact sound.work_preserves effect few
  | @openSession d globals functions _ ih =>
    have sound := ih few
    refine ⟨sound.counter, ?_, sound.given⟩
    intro id seat found
    have inserted : (d.manager.seats.insertWith fun id =>
        (⟨{ id, limits := d.manager.limits }, (d.manager.globals.hold {} globals).1,
          (d.manager.functions.hold {} functions).1⟩ : Seat)).2.get? id = some seat := found
    rcases HandleTable.get?_of_insertWith inserted with ⟨h, rfl⟩ | older
    · simp [serials]
    · exact sound.blocks id seat older
  | @closeSession d id _ ih =>
    have sound := ih few
    unfold Manager.closeSession
    split
    · exact sound
    · rename_i seat seats removed
      refine ⟨sound.counter, fun k other found => ?_, sound.given⟩
      have left : (d.manager.seats.remove id).2.get? k = some other := by
        rw [removed]
        exact found
      exact sound.blocks k other (HandleTable.get?_of_remove left)
  | tables globals functions state _ ih =>
    have sound := ih few
    exact ⟨sound.counter, sound.blocks, sound.given⟩
  | work state _ found course ih =>
    have sound := ih (by simp only at few; omega)
    refine sound.work_preserves ⟨found, course, ⟨state, rfl⟩, fun k => ?_, rfl⟩ few
    exact ⟨[], by simp, fun _ => rfl, by simp⟩

end Dialogue

end Scriptlet
