import Scriptlet.Proofs.Dialogue
import Scriptlet.Proofs.Lockstep

/-!
Sessions do not interfere. What a session answers and the state it comes to do not depend on what is
done meanwhile on a session that shares no table with it, but for the numbering of blocks: both draw
their serials from one counter. A native function that looked into a block id would see what other
sessions do, and so the functions here treat ids as tokens.
-/

namespace Scriptlet

variable {H : Type}

theorem Shelf.get?_set_self {α : Type} (shelf : Shelf α) (place : Nat) (table : α) :
    (shelf.set place table).get? place = (shelf.get? place).map fun _ => table := by
  simp only [Shelf.set, Shelf.get?, List.getElem?_set_self']
  rfl

/-! ### Two managers -/

namespace Manager

/-- A session has the same state in two managers, up to the numbering of its blocks. -/
structure Mirrors (ρ : Renaming) (id : Handle) (seat seat' : Seat) (m m' : Manager H) : Prop where
  host : m'.host = m.host
  found : m.seats.get? id = some seat
  found' : m'.seats.get? id = some seat'
  globalPlace : seat'.globals.place = seat.globals.place
  functionPlace : seat'.functions.place = seat.functions.place
  globals : m'.globals.get? seat.globals.place = m.globals.get? seat.globals.place
  functions : m'.functions.get? seat.functions.place = m.functions.get? seat.functions.place
  session : (m.restore seat).Renamed ρ (m'.restore seat')

def Apart (m : Manager H) (a b : Handle) : Prop :=
  ∀ seat seat', m.seats.get? a = some seat → m.seats.get? b = some seat' →
    seat.globals.place ≠ seat'.globals.place ∧ seat.functions.place ≠ seat'.functions.place

section Store

variable {ρ σ : Renaming} {m m' : Manager H} {a b id : Handle} {seat seat' : Seat} {s s' : Session}

/-- Work of a session moves neither it nor others to different tables. -/
theorem Apart.store (h : m.Apart a b) (found : m.seats.get? id = some seat) (s : Session)
    (state : H) : ({ m.store id seat s with state } : Manager H).Apart a b := by
  have kept : ∀ k other, (m.seats.set id { seat with session := s }).get? k = some other →
      ∃ old, m.seats.get? k = some old ∧ other.globals = old.globals ∧
        other.functions = old.functions := by
    intro k other hother
    rw [HandleTable.get?_set found] at hother
    split at hother
    · rename_i same
      subst same
      obtain rfl := Option.some.inj hother
      exact ⟨seat, found, rfl, rfl⟩
    · exact ⟨other, hother, rfl, rfl⟩
  intro x y hx hy
  obtain ⟨x', hx', xGlobals, xFunctions⟩ := kept a x hx
  obtain ⟨y', hy', yGlobals, yFunctions⟩ := kept b y hy
  rw [xGlobals, xFunctions, yGlobals, yFunctions]
  exact h x' y' hx' hy'

/-- The session itself has worked, in both managers alike. -/
theorem Mirrors.store (h : Mirrors ρ id seat seat' m m') (renamed : s.Renamed σ s')
    (state state' : H) :
    Mirrors σ id { seat with session := s } { seat' with session := s' }
      { m.store id seat s with state } { m'.store id seat' s' with state := state' } := by
  have functions : s'.functions = s.functions := renamed.resembles.functions
  have globalsEven : (m'.globals.set seat'.globals.place s'.scopes.globals).get?
        seat.globals.place =
      (m.globals.set seat.globals.place s.scopes.globals).get? seat.globals.place := by
    rw [h.globalPlace, Shelf.get?_set_self, Shelf.get?_set_self, h.globals, renamed.scopes.globals]
  have functionsEven : (m'.functions.set seat'.functions.place s'.functions).get?
        seat.functions.place =
      (m.functions.set seat.functions.place s.functions).get? seat.functions.place := by
    rw [h.functionPlace, Shelf.get?_set_self, Shelf.get?_set_self, h.functions, functions]
  refine ⟨h.host, ?_, ?_, h.globalPlace, h.functionPlace, globalsEven, functionsEven, ?_⟩
  · simp only [Manager.store, HandleTable.get?_set h.found, if_true]
  · simp only [Manager.store, HandleTable.get?_set h.found', if_true]
  · rw [h.globalPlace] at globalsEven
    rw [h.functionPlace] at functionsEven
    simp only [restore, Manager.store, h.globalPlace, h.functionPlace, globalsEven, functionsEven]
    exact renamed.withTables _ _

/-- Another session has worked, in the first manager only. -/
theorem Mirrors.advance {other : Seat} (h : Mirrors ρ b seat seat' m m') (ne : a ≠ b)
    (apart : m.Apart a b) (found : m.seats.get? a = some other)
    (le : m.serial.toNat ≤ s.scopes.serial.toNat) (state : H) :
    Mirrors ρ b seat seat' { m.store a other s with state } m' := by
  obtain ⟨globals, functions⟩ := apart other seat found h.found
  have globalsKept := m.globals.get?_set_of_ne s.scopes.globals globals.symm
  have functionsKept := m.functions.get?_set_of_ne s.functions functions.symm
  refine ⟨h.host, ?_, h.found', h.globalPlace, h.functionPlace, ?_, ?_, ?_⟩
  · simp only [Manager.store, HandleTable.get?_set found, if_neg ne.symm]
    exact h.found
  · exact h.globals.trans globalsKept.symm
  · exact h.functions.trans functionsKept.symm
  · simp only [restore, Manager.store, globalsKept, functionsKept]
    exact ⟨h.session.scopes.advance le, h.session.report, h.session.rest⟩

end Store

theorem eval_of_found {m : Manager H} {id : Handle} {seat : Seat}
    (found : m.seats.get? id = some seat) (fuel : Nat) (enclosed : Bool) (script : String) :
    m.eval fuel id enclosed script =
      ((m.restore seat).eval m.host fuel m.state enclosed script).map fun r =>
        (r.answer, { m.store id seat r.session with state := r.state }) := by
  simp only [eval, work, found]

theorem evalOpens_of_found {m : Manager H} {id : Handle} {seat : Seat}
    (found : m.seats.get? id = some seat) (fuel : Nat) (enclosed : Bool) (script : String) :
    m.evalOpens fuel id enclosed script =
      (m.restore seat).evalOpens m.host fuel m.state enclosed script := by
  simp only [evalOpens, session?, found, Option.map_some]

theorem request_of_found {m : Manager H} {id : Handle} {seat : Seat}
    (found : m.seats.get? id = some seat) (r : Request) :
    m.request id r =
      (.ok ((m.restore seat).answer r).1,
        { m.store id seat ((m.restore seat).answer r).2.1 with
          state := m.host.absorb ((m.restore seat).answer r).2.2 m.state }) := by
  simp only [request, found]

end Manager

/-! ### Two dialogues -/

namespace Dialogue

inductive Answer.Renamed (ρ : Renaming) : Answer → Answer → Prop where
  | value {r r' : Except Fault String} : ρ.Outcomes r r' → Renamed ρ (.value r) (.value r')
  | reply (r : Request) {a b : r.Answer} : r.Agrees ρ a b →
      Renamed ρ (.reply r (.ok a)) (.reply r (.ok b))
  | closing {r r' : Except Fault.Cause Unit} : ρ.Closings r r' →
      Renamed ρ (.closing (.ok r)) (.closing (.ok r'))
  | nothing : Renamed ρ .nothing .nothing

namespace Answer.Renamed

variable {ρ σ : Renaming} {x y : Answer}

theorem mono (h : x.Renamed ρ y) (le : ρ ≤ σ) : x.Renamed σ y := by
  cases h with
  | value outcomes => exact .value (outcomes.mono le)
  | reply r agrees => exact .reply r (agrees.mono le)
  | closing closings =>
    cases closings with
    | ok => exact .closing .ok
    | error causes => exact .closing (.error (causes.mono le))
  | nothing => exact .nothing

theorem ids (h : x.Renamed ρ y) : List.Forall₂ ρ.Names x.ids y.ids := by
  cases h with
  | reply r agrees =>
    cases r with
    | openBlock => exact .cons agrees .nil
    | _ => exact .nil
  | _ => exact .nil

end Answer.Renamed

theorem getElem?_forall₂ {α β : Type} {R : α → β → Prop} {xs : List α} {ys : List β}
    (h : List.Forall₂ R xs ys) (i : Nat) : Option.Rel R xs[i]? ys[i]? := by
  induction h generalizing i with
  | nil => exact .none
  | cons head _ ih =>
    cases i with
    | zero => exact .some head
    | succ i => exact ih i

/-- Two dialogues of which one leaves out what is done on the session `a`. -/
structure Mirrors (ρ : Renaming) (a b : Handle) (d d' : Dialogue H) : Prop where
  discreet : d.manager.host.Discreet
  apart : d.manager.Apart a b
  counter : d.manager.serial.toNat = d.opened
  manager : ∃ seat seat', d.manager.Mirrors ρ b seat seat' d'.manager
  given : List.Forall₂ ρ.Names (d.given b) (d'.given b)

namespace Mirrors

variable {ρ : Renaming} {a b : Handle} {d d' e : Dialogue H} {fuel : Nat} {op : Operation}
  {answer : Answer}

theorem counter_of_effect {id : Handle} {seat : Seat} {s : Session} {n : Nat}
    (h : Mirrors ρ a b d d') (effect : Effect d e id seat s n) (few : e.opened < 2 ^ 32) :
    s.scopes.serial.toNat = e.opened := by
  have opened := effect.opened
  have start : (d.manager.restore seat).scopes.serial.toNat = d.opened := h.counter
  have total := effect.course.toNat_serial (by omega)
  omega

/-- What is done on the other session makes no difference. -/
theorem other_step (h : Mirrors ρ a b d d') (ne : a ≠ b)
    (operated : d.operate fuel a op = some (answer, e)) (few : e.opened < 2 ^ 32) :
    Mirrors ρ a b e d' := by
  rcases operate_affects operated with rfl | ⟨other, s, n, effect⟩
  · exact h
  · have counter := h.counter_of_effect effect few
    obtain ⟨state, manager⟩ := effect.manager
    obtain ⟨seat, seat', mirrors⟩ := h.manager
    obtain ⟨more, given, elsewhere, _⟩ := effect.given b
    have le : d.manager.serial.toNat ≤ s.scopes.serial.toNat := by
      have := h.counter
      have := effect.opened
      omega
    refine ⟨?_, ?_, ?_, ⟨seat, seat', ?_⟩, ?_⟩
    · rw [manager]
      exact h.discreet
    · rw [manager]
      exact h.apart.store effect.found s state
    · rw [manager]
      exact counter
    · rw [manager]
      exact mirrors.advance ne h.apart effect.found le state
    · rw [given, elsewhere ne.symm, List.append_nil]
      exact h.given

/-- Two answers to one operation are noted. -/
theorem note (h : Mirrors ρ a b d d') {σ : Renaming} {m m' : Manager H} {seat seat' : Seat}
    {answer answer' : Answer} {n n' : Nat} (le : ρ ≤ σ) (discreet : m.host.Discreet)
    (apart : m.Apart a b) (counter : m.serial.toNat = d.opened + n)
    (mirrors : m.Mirrors σ b seat seat' m') (renamed : answer.Renamed σ answer') :
    Mirrors σ a b (d.note b answer m n).2 (d'.note b answer' m' n').2 := by
  refine ⟨discreet, apart, counter, ⟨seat, seat', mirrors⟩, ?_⟩
  simp only [Dialogue.note, if_true]
  exact List.rel_append (h.given.imp fun _ _ names => names.mono le) renamed.ids

def Matched (ρ : Renaming) (a b : Handle) (d' : Dialogue H) (fuel : Nat) (op : Operation)
    (answer : Answer) (e : Dialogue H) : Prop :=
  ∃ σ answer' e', ρ ≤ σ ∧ d'.operate fuel b op = some (answer', e') ∧ answer.Renamed σ answer' ∧
    Mirrors σ a b e e'

theorem eval_matched (h : Mirrors ρ a b d d') {enclosed : Bool} {script : String}
    (operated : d.operate fuel b (.eval enclosed script) = some (answer, e))
    (few : e.opened + 1 < 2 ^ 32) : Matched ρ a b d' fuel (.eval enclosed script) answer e := by
  obtain ⟨seat, seat', mirrors⟩ := h.manager
  have start : (d.manager.restore seat).scopes.serial.toNat = d.opened := h.counter
  obtain ⟨⟨r, m⟩, evaluated, noted⟩ := Option.map_eq_some_iff.mp operated
  obtain ⟨rfl, rfl⟩ := Prod.mk.inj noted
  rw [Manager.eval_of_found mirrors.found] at evaluated
  obtain ⟨fin, ended, heq⟩ := Option.map_eq_some_iff.mp evaluated
  obtain ⟨rfl, rfl⟩ := Prod.mk.inj heq
  have opens := Manager.evalOpens_of_found mirrors.found fuel enclosed script
  have small : d.opened + d.manager.evalOpens fuel b enclosed script + 1 < 2 ^ 32 := few
  obtain ⟨σ, fin', further, ended', renamed⟩ :=
    mirrors.session.eval h.discreet d'.manager.state ended (by omega)
  have total := (Session.eval_course ended).toNat_serial (by omega)
  have counter : fin.session.scopes.serial.toNat =
      d.opened + d.manager.evalOpens fuel b enclosed script := by omega
  have evaluated' : d'.manager.eval fuel b enclosed script = some (fin'.answer,
      { d'.manager.store b seat' fin'.session with state := fin'.state }) := by
    rw [Manager.eval_of_found mirrors.found', mirrors.host, ended']
    rfl
  have operated' : d'.operate fuel b (.eval enclosed script) =
      some (d'.note b (.value fin'.answer)
        { d'.manager.store b seat' fin'.session with state := fin'.state }
        (d'.manager.evalOpens fuel b enclosed script)) := by
    rw [operate, evaluated']
    rfl
  refine ⟨σ, _, _, further, operated', .value renamed.answer, ?_⟩
  exact h.note further h.discreet (h.apart.store mirrors.found _ _) counter
    (mirrors.store renamed.session fin.state fin'.state) (.value renamed.answer)

/-- A request finds corresponding answers, and is noted in both dialogues. -/
theorem request_noted (h : Mirrors ρ a b d d') {σ : Renaming} {seat seat' : Seat} {r r' : Request}
    {answer answer' : Answer} (le : ρ ≤ σ)
    (mirrors : d.manager.Mirrors ρ b seat seat' d'.manager)
    (few : d.opened + d.manager.requestOpens b r < 2 ^ 32)
    (kept : ((d.manager.restore seat).answer r).2.1.Renamed σ
      ((d'.manager.restore seat').answer r').2.1)
    (renamed : answer.Renamed σ answer') (n : Nat) :
    Mirrors σ a b (d.note b answer (d.manager.request b r).2 (d.manager.requestOpens b r)).2
      (d'.note b answer' (d'.manager.request b r').2 n).2 := by
  have start : (d.manager.restore seat).scopes.serial.toNat = d.opened := h.counter
  simp only [Manager.requestOpens, Manager.session?, mirrors.found, Option.map_some] at few ⊢
  have total := (Machine.answer_turns (d.manager.restore seat) r).toNat_serial (by omega)
  rw [Manager.request_of_found mirrors.found, Manager.request_of_found mirrors.found']
  exact h.note le h.discreet (h.apart.store mirrors.found _ _) (total.trans (by rw [start]))
    (mirrors.store kept _ _) renamed

theorem request_matched (h : Mirrors ρ a b d d') {r : Request} {noBlock : r.namesNoBlock = true}
    (operated : d.operate fuel b (.request r noBlock) = some (answer, e))
    (few : e.opened + 1 < 2 ^ 32) : Matched ρ a b d' fuel (.request r noBlock) answer e := by
  obtain ⟨seat, seat', mirrors⟩ := h.manager
  have start : (d.manager.restore seat).scopes.serial.toNat = d.opened := h.counter
  obtain ⟨rfl, rfl⟩ := Prod.mk.inj (Option.some.inj operated)
  have small : d.opened + d.manager.requestOpens b r + 1 < 2 ^ 32 := few
  obtain ⟨σ, further, agrees, kept⟩ := mirrors.session.answer (by omega) noBlock
  have renamed : (Answer.reply r (d.manager.request b r).1).Renamed σ
      (.reply r (d'.manager.request b r).1) := by
    rw [Manager.request_of_found mirrors.found, Manager.request_of_found mirrors.found']
    exact .reply r agrees
  exact ⟨σ, _, _, further, rfl, renamed,
    h.request_noted further mirrors (by omega) kept renamed _⟩

theorem close_matched (h : Mirrors ρ a b d d') {turn : Nat}
    (operated : d.operate fuel b (.close turn) = some (answer, e))
    (few : e.opened + 1 < 2 ^ 32) : Matched ρ a b d' fuel (.close turn) answer e := by
  obtain ⟨seat, seat', mirrors⟩ := h.manager
  have ids := getElem?_forall₂ h.given turn
  rw [operate] at operated
  generalize left : (d.given b)[turn]? = x, right : (d'.given b)[turn]? = y at ids operated
  cases ids with
  | none =>
    obtain ⟨rfl, rfl⟩ := Prod.mk.inj (Option.some.inj operated)
    refine ⟨ρ, .nothing, _, le_rfl, by rw [operate, right]; rfl, .nothing, ?_⟩
    exact h.note le_rfl h.discreet h.apart h.counter mirrors .nothing
  | @some x y names =>
    obtain ⟨rfl, rfl⟩ := Prod.mk.inj (Option.some.inj operated)
    have small : d.opened + d.manager.requestOpens b (.closeBlock x) + 1 < 2 ^ 32 := few
    obtain ⟨closings, kept⟩ := mirrors.session.answer_closeBlock names
    have renamed : (Answer.closing (d.manager.request b (.closeBlock x)).1).Renamed ρ
        (.closing (d'.manager.request b (.closeBlock y)).1) := by
      rw [Manager.request_of_found mirrors.found, Manager.request_of_found mirrors.found']
      exact .closing closings
    refine ⟨ρ, _, _, le_rfl, by rw [operate, right]; rfl, renamed, ?_⟩
    exact h.request_noted le_rfl mirrors (by omega) kept renamed _

theorem own_step (h : Mirrors ρ a b d d') (operated : d.operate fuel b op = some (answer, e))
    (few : e.opened + 1 < 2 ^ 32) : Matched ρ a b d' fuel op answer e := by
  cases op with
  | eval enclosed script => exact h.eval_matched operated few
  | request r noBlock => exact h.request_matched operated few
  | close turn => exact h.close_matched operated few

end Mirrors

/-! ### Interleavings -/

def SameReply (ρ : Renaming) (x y : Handle × Answer) : Prop := y.1 = x.1 ∧ x.2.Renamed ρ y.2

/-- Left out operation by operation, the other session is never missed. -/
theorem Mirrors.run {ρ : Renaming} {a b : Handle} {d d' e : Dialogue H} {fuel : Nat}
    {ops : List (Handle × Operation)} {answers : List (Handle × Answer)}
    (h : Mirrors ρ a b d d') (ne : a ≠ b) (among : ∀ op ∈ ops, op.1 = a ∨ op.1 = b)
    (ran : d.run fuel ops = some (answers, e)) (few : e.opened + 1 < 2 ^ 32) :
    ∃ σ answers' e', ρ ≤ σ ∧ d'.run fuel (ops.filter (·.1 = b)) = some (answers', e') ∧
      List.Forall₂ (SameReply σ) (answers.filter (·.1 = b)) answers' ∧ Mirrors σ a b e e' := by
  induction ops generalizing d d' answers ρ with
  | nil =>
    obtain ⟨rfl, rfl⟩ := Prod.mk.inj (Option.some.inj ran)
    exact ⟨ρ, [], d', le_rfl, rfl, .nil, h⟩
  | cons op rest ih =>
    obtain ⟨id, op⟩ := op
    obtain ⟨answer, mid, later, operated, onward, rfl⟩ := run_cons.mp ran
    have le := opened_le_of_run onward
    have amongRest : ∀ op ∈ rest, op.1 = a ∨ op.1 = b :=
      fun op mem => among op (List.mem_cons_of_mem _ mem)
    rcases among _ List.mem_cons_self with other | own
    · obtain rfl : id = a := other
      rw [List.filter_cons_of_neg (by simpa using ne), List.filter_cons_of_neg (by simpa using ne)]
      exact ih (h.other_step ne operated (by omega)) amongRest onward
    · obtain rfl : id = b := own
      obtain ⟨σ, answer', mid', further, operated', renamed, mirrors⟩ :=
        h.own_step operated (by omega)
      obtain ⟨τ, answers', e', beyond, ran', replies, last⟩ := ih mirrors amongRest onward
      rw [List.filter_cons_of_pos (by simp), List.filter_cons_of_pos (by simp)]
      refine ⟨τ, (id, answer') :: answers', e', le_trans further beyond, ?_, ?_, last⟩
      · exact run_cons.mpr ⟨answer', mid', answers', operated', ran', rfl⟩
      · exact .cons ⟨rfl, renamed.mono beyond⟩ replies

/-- Every session is in the state that it is in. -/
theorem Sound.mirrors {d : Dialogue H} {a b : Handle} {seat : Seat} (sound : Sound d)
    (discreet : d.manager.host.Discreet) (apart : d.manager.Apart a b)
    (found : d.manager.seats.get? b = some seat) :
    Mirrors (.upTo d.manager.serial) a b d d := by
  have scopes := (sound.numbered found).renamed
  have report : Option.Rel (Renaming.upTo d.manager.serial).Texts seat.session.report
      seat.session.report := by
    cases seat.session.report with
    | none => exact .none
    | some text => exact .some (.same text)
  have mirrors : d.manager.Mirrors (.upTo d.manager.serial) b seat seat d.manager :=
    ⟨rfl, found, found, rfl, rfl, rfl, rfl, scopes, report, rfl⟩
  refine ⟨discreet, apart, sound.counter, ⟨seat, seat, mirrors⟩, ?_⟩
  refine List.forall₂_same.mpr fun block mem => ⟨rfl, rfl, ?_⟩
  rw [sound.counter]
  exact sound.given b block mem

end Dialogue

end Scriptlet
