import Scriptlet.Proofs.ScanAgreement
import Scriptlet.Proofs.Watching

/-!
How constructs finish. Each frame finishes in a phase of its kind and hands on a `return` only while
it executes, so a statement is done, closes a block, returns or finds the end of the script, and
nothing else ever reaches the script around it. The end of the script is put back only where it has
been reached; a script that is evaluated to its end has been read to its last octet.
-/

namespace Scriptlet

/-! ### Readers -/

theorem Lexer.rest_of_eof {newlines : Bool} {skip : Nat} {p p' : Position} {bs rest : List UInt8}
    {t : Token} (read : next newlines skip p bs = (t, p', rest)) (ends : t.kind = .eof) :
    rest = [] := by
  induction bs generalizing skip p with
  | nil =>
    cases skip <;>
    · cases read
      rfl
  | cons b bs ih =>
    cases skip with
    | succ skip => exact ih read
    | zero =>
      have plain := piece_plain b bs
      rw [next] at read
      split at read
      · exact ih read
      · split at read
        · cases read
          cases ends
        · exact ih read
      · rename_i h
        rw [h] at plain
        cases read
        exact absurd ends plain.2

namespace Input

variable {sure : Prop} {i j : Input} {t : Token}

/-- If `sure`, the end of the script is put back only where it has been reached. -/
def Sound (sure : Prop) (i : Input) : Prop :=
  sure → ∀ t, i.putback = some t → t.kind = .eof → i.rest = []

structure Taken (sure : Prop) (t : Token) (i : Input) : Prop where
  fresh : i.putback = none
  ended : sure → t.kind = .eof → i.rest = []

theorem Sound.next {phase : Phase} (h : i.Sound sure) (read : i.next phase = (t, j)) :
    j.Taken sure t := by
  have fresh := i.putback_next phase
  rw [read] at fresh
  refine ⟨fresh, fun certain ends => ?_⟩
  obtain ⟨rest, position, putback⟩ := i
  cases putback with
  | some u =>
    obtain ⟨rfl, rfl⟩ := Prod.mk.inj read
    exact h certain _ rfl ends
  | none =>
    rcases found : Lexer.next phase.readsNewlines 0 position rest with ⟨u, p, left⟩
    simp only [Input.next, found] at read
    obtain ⟨rfl, rfl⟩ := Prod.mk.inj read
    exact Lexer.rest_of_eof found ends

theorem Taken.sound (h : i.Taken sure t) : i.Sound sure := by
  intro _ u back
  rw [h.fresh] at back
  cases back

theorem Taken.unread (h : i.Taken sure t) : (i.unread t).Sound sure := by
  rintro certain _ ⟨⟩ ends
  exact h.ended certain ends

end Input

def Watch.ending (sure : Prop) : Watch where
  here := Input.Sound sure
  took := Input.Taken sure
  named _ _ := True
  tells fault _ := fault.cause.Local
  next here read _ := here.next read
  malformed _ _ _ := nofun
  taken took := took.sound
  unread took := took.unread
  name _ _ := trivial
  behind _ _ _ _ := ⟨trivial, trivial⟩
  unbound _ _ := nofun
  plain _ plain := Fault.Cause.local_of_plain plain

theorem Frame.anchored_false (f : Frame) : f.Anchored (Watch.ending False) := by
  have sound : ∀ i, (Watch.ending False).here i := fun _ sure => sure.elim
  unfold Anchored
  split
  · exact ⟨fun i _ => sound i, fun i _ => sound i, fun i _ => sound i, fun i _ => sound i⟩
  · trivial

/-! ### Completions -/

def Input.first (i : Input) : Token :=
  let (t, j) := i.next .stmt
  if t.kind = .newline then (j.next .expr).1 else t

/-- A newline more in front makes no difference. -/
theorem Input.first_of_newline {i j : Input} {t : Token} (read : i.next .stmt = (t, j))
    (newline : t.kind = .newline) : i.first = j.first := by
  have fresh : j.putback = none := by
    have empty := i.putback_next .stmt
    rwa [read] at empty
  have here : i.first = (j.next .expr).1 := by simp only [first, read, newline, if_true]
  have skipped : Lexer.take false j.tokens = ((j.next .expr).1, (j.next .expr).2.tokens) :=
    take_tokens fresh .expr
  rw [here, first]
  cases tokens : j.tokens with
  | nil =>
    obtain ⟨k, last, -⟩ := next_of_nil fresh .stmt tokens
    obtain ⟨k', last', -⟩ := next_of_nil fresh .expr tokens
    simp [last, last', Token.eof]
  | cons u us =>
    obtain ⟨k, next, empty, rest, -⟩ := next_of_cons fresh .stmt rfl tokens
    rw [tokens, Lexer.take] at skipped
    rw [next]
    dsimp only
    by_cases again : u.kind = .newline
    · have later : Lexer.take false k.tokens = ((k.next .expr).1, (k.next .expr).2.tokens) :=
        take_tokens empty .expr
      rw [if_pos ⟨again, rfl⟩, ← rest, later] at skipped
      rw [if_pos again]
      exact (Prod.mk.inj skipped).1.symm
    · rw [if_neg fun h => again h.1] at skipped
      rw [if_neg again]
      exact (Prod.mk.inj skipped).1.symm

namespace Machine

variable {H : Type} {host : Host H} {sure : Prop}

/-- How a frame has completed: it finished as its kind does and left the reader sound, or failed. A
cause that is not local can only have come from a native function. -/
def Closed (host : Host H) (sure : Prop) (f : Frame) (s : Session) (cs : List (Invocation H)) :
    Except Fault Phase → Prop
  | .ok phase => f.Finishes phase ∧ s.input.Sound sure
  | .error fault => ¬ fault.cause.Local → ∃ call ∈ cs, call.Raises host fault.cause

theorem Attended.closed {flags : Flags} {s : Session} {cs : List (Invocation H)}
    {r : Except Fault Phase} (h : Attended host (.ending sure) flags s cs r) :
    Closed host sure (Frame.newStatement flags) s cs r := by
  obtain ⟨r₀, rfl, watched⟩ := h
  cases r₀ with
  | ok phase => exact watched
  | error fault =>
    intro other
    rw [Fault.cause_orLine] at other ⊢
    exact watched.resolve_left other

theorem Invocation.heeds_ending {call : Invocation H} (leave : sure → call.LeavesInput host) :
    call.Heeds host (.ending sure) := by
  intro s' state' ends here certain
  rw [leave certain _ _ _ ends]
  exact here certain

/-- A statement finds the end of the script, or of the block around it, exactly where that is the
first thing it reads, and then it has read it. -/
theorem Completes.first {flags : Flags} {name : String} {out : Except Fault Move × Scene}
    {state state' : H} {phase : Phase} {s' : Session} {cs : List (Invocation H)}
    (h : Completes host name out state (.ok phase) s' state' cs) {inner : Option Phase}
    {s : Session} (hout : (Frame.newStatement flags).act inner s = out)
    (here : s.input.Sound sure) :
    (phase = .eof ↔ s.input.first.kind = .eof) ∧
      (phase = .stmtBlockDone ↔ s.input.first.kind = .rbrace) ∧
      (phase = .eof → s'.input.putback = none ∧ (sure → s'.input.rest = [])) := by
  induction h using Completes.ok_induction generalizing inner s with
  | invoke =>
    obtain ⟨t, input, -, -, begins, -⟩ := Frame.newStatement_begins hout
    generalize t.kind = kind at begins
    cases begins
  | done =>
    obtain ⟨t, input, read, -, begins, same⟩ := Frame.newStatement_begins hout
    obtain rfl := same (by simp)
    have taken := here.next read
    have first : s.input.first = if t.kind = .newline then (input.next .expr).1 else t := by
      simp only [Input.first, read]
    generalize found : t.kind = kind at begins first
    cases begins with
    | empty => simp [first, found]
    | closed => simp [first, found]
    | ended => simpa [first, found] using ⟨taken.fresh, fun certain => taken.ended certain found⟩
  | @stay _ scene _ _ _ _ _ _ _ ih =>
    obtain ⟨t, input, read, -, begins, same⟩ := Frame.newStatement_begins hout
    obtain rfl := same (by simp)
    generalize found : t.kind = kind at begins
    cases begins with
    | blank =>
      rw [Input.first_of_newline read found]
      exact ih rfl (here.next read).sound
  | @push _ _ _ self _ inside s₁ _ phase _ _ _ _ _ _ comp₂ =>
    obtain ⟨t, input, read, -, begins, -⟩ := Frame.newStatement_begins hout
    have first : s.input.first = if t.kind = .newline then (input.next .expr).1 else t := by
      simp only [Input.first, read]
    generalize found : t.kind = kind at begins first
    cases begins with
    | forward other more closed =>
      have finished : phase = .stmtDone ∨ phase = .ret := by
        by_cases returned : inside = .ret
        · subst returned
          exact .inr (comp₂.relayed rfl)
        · have finishes : Watched host (.ending False) _ _ _ (.ok phase) :=
            comp₂.watched rfl (by simp [returned]) trivial nofun (fun _ _ _ => trivial)
              fun _ _ => Invocation.heeds_ending nofun
          exact finishes.1.imp (by simp [Frame.ends]) (·.1)
      rw [if_neg other] at first
      rcases finished with rfl | rfl <;> simp [first, found, more, closed]

/-- How a statement that is parsed has finished, and what it has found first. -/
theorem parse_closed {fuel : Nat} {s s' : Session} {state state' : H} {flags : Flags}
    {r : Except Fault Phase}
    (parsed : s.parse host fuel state .stmt flags = some ⟨r, s', state'⟩)
    (here : s.input.Sound sure)
    (leave : sure → ∀ call ∈ s.parseCalls host fuel state .stmt flags, call.LeavesInput host) :
    Closed host sure (Frame.newStatement flags) s'
        (s.parseCalls host fuel state .stmt flags) r ∧
      ∀ phase, r = .ok phase →
        (phase = .eof ↔ s.input.first.kind = .eof) ∧
        (phase = .stmtBlockDone ↔ s.input.first.kind = .rbrace) ∧
        (phase = .eof → s'.input.putback = none ∧ (sure → s'.input.rest = [])) := by
  refine ⟨(parse_attended parsed here fun call inside => ?_).closed, ?_⟩
  · exact Invocation.heeds_ending fun certain => leave certain call inside
  · rintro phase rfl
    obtain ⟨-, s₀, rfl, comp⟩ := Session.completes_of_parse_ok rfl parsed
    exact comp.first (s := s.enter) rfl here

/-- What holds of every statement holds of the last one that a script executes. -/
theorem Executes.closed {s s' : Session} {state state' : H} {r : Except Fault Phase}
    {cs : List (Invocation H)} (h : Executes host s state r s' state' cs)
    (here : s.input.Sound sure) (leave : sure → ∀ call ∈ cs, call.LeavesInput host) :
    Closed host sure (Frame.newStatement .execute) s' cs r ∧
      (r = .ok .eof → s'.input.putback = none ∧ (sure → s'.input.rest = [])) := by
  refine ⟨(h.attended here fun call inside => ?_).closed, ?_⟩
  · exact Invocation.heeds_ending fun certain => leave certain call inside
  · induction h with
    | last parsed _ => exact fun ended => ((parse_closed parsed here leave).2 _ ended).2.2 rfl
    | next parsed _ ih =>
      have before := parse_closed parsed here fun certain call hcall =>
        leave certain call (List.mem_append_left _ hcall)
      exact ih before.1.2 fun certain call hcall =>
        leave certain call (List.mem_append_right _ hcall)

end Machine

namespace Session

open Machine

variable {H : Type}

theorem sound_begun (s : Session) (enclosed : Bool) (script : String) (sure : Prop) :
    (s.begun enclosed script).input.Sound sure := by
  intro _ t putback
  cases putback

/-- No suffix of a script is ignored. A statement is done, closes a block, returns or finds the end
of the script, and which of them is told by its first token. So an evaluation never fails on the
phase that a statement has finished in, unless a native function brings up that failure itself. If
it succeeds without a `return`, and native functions leave the script alone, its statements have
been accepted one after the other, and no octet is left. -/
theorem eval_accepts (host : Host H) (s : Session) (state : H) :
    (∀ fuel flags fin phase, s.parse host fuel state .stmt flags = some fin →
      fin.answer = .ok phase →
        (phase = .stmtDone ∨ phase = .stmtBlockDone ∨ phase = .ret ∨ phase = .eof) ∧
        (phase = .eof ↔ s.input.first.kind = .eof) ∧
        (phase = .stmtBlockDone ↔ s.input.first.kind = .rbrace) ∧
        (phase = .ret → flags.executes = true)) ∧
    ∀ fuel enclosed script fin, s.eval host fuel state enclosed script = some fin →
      (∀ fault phase, fin.answer = .error fault → fault.cause = .unexpectedPhase phase →
        ∃ call ∈ s.evalCalls host fuel state enclosed script, call.Raises host fault.cause) ∧
      ((∀ call ∈ s.evalCalls host fuel state enclosed script, call.LeavesInput host) →
        s.evalReturns host fuel state enclosed script = false →
        ∀ value, fin.answer = .ok value → ∃ state₀ s' state' cs,
          Executes host (s.begun enclosed script) state₀ (.ok .eof) s' state' cs ∧
          s'.input.rest = [] ∧ s'.input.putback = none ∧ s'.result = value) := by
  refine ⟨?_, ?_⟩
  · rintro fuel flags ⟨_, s', state'⟩ phase parsed rfl
    have here : s.input.Sound False := nofun
    obtain ⟨⟨finishes, -⟩, first⟩ := parse_closed parsed here nofun
    obtain ⟨ended, blockEnded, -⟩ := first phase rfl
    refine ⟨?_, ended, blockEnded, ?_⟩
    · have known := Frame.newStatement_finishes.mp finishes
      rcases known with h | h | h | ⟨h, -⟩ <;> simp [h]
    · rintro rfl
      exact finishes.executes
  · intro fuel enclosed script fin ends
    obtain ⟨r, s', state', cs, m, executes, other, returned, part, rest⟩ := executes_of_eval ends
    have verdict := answer_of_last other rest
    refine ⟨fun fault phase failed cause => ?_, fun leave silent value accepted => ?_⟩
    · have closed := (executes.closed (sound_begun s enclosed script False) nofun).1
      rcases r with fault' | phase'
      · obtain rfl : fault' = fault := by
          rw [failed] at verdict
          exact (Except.error.inj verdict).symm
        obtain ⟨call, inside, raises⟩ := closed fun isLocal => isLocal phase cause
        exact ⟨call, part inside, raises⟩
      · rw [failed] at verdict
        rcases Frame.newStatement_finishes.mp closed.1 with rfl | rfl | rfl | ⟨rfl, -⟩
        · exact absurd rfl other
        · cases verdict
          cases cause
        · cases verdict
        · cases verdict
    · obtain ⟨-, last⟩ := executes.closed (sound_begun s enclosed script True)
        fun _ call inside => leave call (part inside)
      rw [accepted] at verdict
      obtain ⟨rfl | rfl, rfl⟩ := last_of_verdict verdict.symm
      · obtain ⟨none, all⟩ := last rfl
        exact ⟨_, s', state', cs, executes, all trivial, none, rfl⟩
      · rw [returned rfl] at silent
        cases silent

theorem eval_accepts_nested :
    let host : Host Unit := { natives := fun _ _ => .done () }
    let s : Session := { id := ⟨0, 1⟩, scopes := { globals := Table.insert {} "x" "0" } }
    let script :=
      "for (i = 0; i < 3; i++) \x7b x = x + i; \x7d\n\nif (x > 9) y else\n x + 4 // so far\n"
    ∃ fin, s.eval host 400 () false script = some fin ∧ fin.answer = .ok "7" ∧
      ∃ state₀ s' state' cs, Executes host (s.begun false script) state₀ (.ok .eof) s' state' cs ∧
        s'.input.rest = [] ∧ s'.input.putback = none ∧ s'.result = "7" := by
  intro host s script
  have ends : (s.eval host 400 () false script).bind (·.answer.toOption) = some "7" := by
    decide +kernel
  have silent : s.evalCalls host 400 () false script = [] :=
    List.length_eq_zero_iff.mp (by decide +kernel)
  have falls : s.evalReturns host 400 () false script = false := by decide +kernel
  obtain ⟨fin, executed, value⟩ := Option.bind_eq_some_iff.mp ends
  have accepted : fin.answer = .ok "7" := by
    generalize fin.answer = answer at value
    cases answer with
    | ok text => exact congrArg _ (Option.some.inj value)
    | error fault => cases value
  have whole := ((eval_accepts host s ()).2 400 false script fin executed).2
  exact ⟨fin, executed, accepted, whole (by simp [silent]) falls "7" accepted⟩

end Session

end Scriptlet
