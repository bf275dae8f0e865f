import Mathlib.Data.List.Chain
import Scriptlet.Proofs.Lookahead
import Scriptlet.Proofs.Records
import Scriptlet.Proofs.Reporting

/-!
The lookahead of evaluations. On a stack every frame leaves the slot as the frame that waits for it
expects to find it, and this is kept along every run that calls no native function. So each frame
whose turn comes finds what it needs, and no evaluation fails about a newline.
-/

namespace Scriptlet

namespace Frame

/-- Frames on a stack: the one above leaves the slot as the one that waits for it expects it. -/
def Supports (above waiting : Frame) : Prop := waiting.Trusts above ∧ waiting.Tidy

theorem Replaces.supports {self f waiting : Frame} (h : self.Replaces f)
    (supports : f.Supports waiting) : self.Supports waiting :=
  ⟨fun phase wants => h.leaves.trans (supports.1 phase wants), supports.2⟩

end Frame

namespace Machine

variable {H : Type} {host : Host H}

def Config.Settled (c : Config H .text) : Prop :=
  match c.control with
  | .drive _ top below inner outer =>
    top.Served inner c.session.input ∧ (top :: below).IsChain Frame.Supports ∧
      outer.inNative = false
  | .program _ _ => False
  | .deliver _ answer outer =>
    (∀ fault, answer = .error fault → fault.cause.SparesNewlines) ∧ outer.inNative = false

theorem completed_settled {base : Nat} {below : List Frame} {outer : Waiting H .text .phase}
    {s : Session} {state : H} {r : Except Fault Phase} (direct : outer.inNative = false)
    (fault : ∀ fault, r = .error fault → fault.cause.SparesNewlines)
    (next : ∀ phase waiting rest, r = .ok phase → below = waiting :: rest →
      waiting.Served (some phase) s.input ∧ below.IsChain Frame.Supports) :
    (completed base below outer r s state).Settled := by
  cases r with
  | error f =>
    refine ⟨?_, direct⟩
    rintro _ ⟨⟩
    rw [Fault.cause_orLine]
    exact fault f rfl
  | ok phase =>
    cases below with
    | nil =>
      refine ⟨fun f failed => ?_, direct⟩
      cases failed
    | cons waiting rest =>
      obtain ⟨served, chain⟩ := next phase waiting rest rfl rfl
      exact ⟨served, chain, direct⟩

theorem drive_settled {s : Session} {state : H} {base : Nat} {top : Frame} {below : List Frame}
    {inner : Option Phase} {outer : Waiting H .text .phase} {next : Config H .text}
    (settled : Config.Settled ⟨s, state, .drive base top below inner outer⟩)
    (silent : Config.call? host ⟨s, state, .drive base top below inner outer⟩ = none)
    (st : step host ⟨s, state, .drive base top below inner outer⟩ = .inr next) :
    next.Settled := by
  obtain ⟨served, chain, direct⟩ := settled
  have act := Frame.act_settled served
  rcases hact : top.act inner s with ⟨fault | move, scene⟩
  · rw [hact] at act
    rw [step_fault hact] at st
    obtain rfl := Sum.inr.inj st
    refine completed_settled direct ?_ fun _ _ _ done => by cases done
    rintro _ ⟨⟩
    exact act.1
  · rw [hact] at act
    cases move with
    | done phase =>
      rw [step_done hact] at st
      obtain rfl := Sum.inr.inj st
      refine completed_settled direct (fun _ failed => by cases failed) ?_
      rintro _ waiting rest ⟨⟩ rfl
      obtain ⟨⟨trusts, tidy⟩, chain⟩ := List.isChain_cons_cons.mp chain
      exact ⟨⟨tidy, fun wants => act.2 (trusts phase wants)⟩, chain⟩
    | stay self =>
      rw [step_stay hact] at st
      obtain rfl := Sum.inr.inj st
      obtain ⟨replaces, steady⟩ := act
      exact ⟨⟨replaces.tidy, steady.2⟩, chain.imp_head fun supports => replaces.supports supports,
        direct⟩
    | push self child =>
      by_cases room : scene.session.depth < scene.session.limits.maxDepth
      · rw [step_push hact room] at st
        obtain rfl := Sum.inr.inj st
        obtain ⟨replaces, trusts, tidy, steady⟩ := act
        exact ⟨⟨tidy, steady.2⟩, List.isChain_cons_cons.mpr ⟨⟨trusts, replaces.tidy⟩,
          chain.imp_head fun supports => replaces.supports supports⟩, direct⟩
      · rw [step_limit hact (Nat.not_lt.mp room)] at st
        obtain rfl := Sum.inr.inj st
        refine completed_settled direct ?_ fun _ _ _ done => by cases done
        rintro _ ⟨⟩
        exact Fault.Cause.spares_of_none rfl
    | invoke target args saved =>
      rw [call?_invoke direct hact] at silent
      cases silent

theorem beginParse_settled (s : Session) (state : H) {outer : Waiting H .text .phase}
    (direct : outer.inNative = false) :
    Config.Settled ⟨(beginParse s .stmt .execute outer).1, state,
      (beginParse s .stmt .execute outer).2⟩ := by
  rcases Session.begins_or_refused s .stmt .execute with ⟨room, frame, hstart⟩ | refused
  · rw [Session.beginParse_start room hstart outer]
    cases hstart
    exact ⟨⟨Frame.tidy_of_bare rfl, nofun⟩, .singleton _, direct⟩
  · obtain ⟨fault, plain, hbegin⟩ := Session.beginParse_refused refused
    rw [hbegin outer]
    refine ⟨?_, direct⟩
    rintro _ ⟨⟩
    refine Fault.Cause.spares_of_none ?_
    rcases plain with cause | cause <;> rw [cause] <;> rfl

theorem startEval_settled (s : Session) (state : H) (enclosed : Bool) (script : String) :
    (s.evalStart host state enclosed script).Settled := by
  cases enclosed with
  | false =>
    exact beginParse_settled
      { s with input := .ofScript script, call := none, result := "", report := none } _ rfl
  | true =>
    exact beginParse_settled { s with
      scopes := s.scopes.openBlock.2, input := .ofScript script, call := none, result := "",
      report := none } _ rfl

theorem script_settled {s : Session} {state : H} {r : Except Fault Phase} {input : Input}
    {saved : Option Call} {blocks : Nat} {outer : Waiting H .text .text}
    (direct : outer.inNative = false)
    (fault : ∀ fault, r = .error fault → fault.cause.SparesNewlines) :
    (resume host state (scriptStep s input saved blocks r outer)).Settled := by
  have failed : ∀ f : Fault, f.cause.SparesNewlines →
      (resume host state (failEval s input saved blocks f outer)).Settled := by
    intro f spares
    refine ⟨?_, direct⟩
    rintro _ ⟨⟩
    exact spares
  have ended : (resume host state ((endEval s input saved (.ok s.result) outer).1, [],
      (endEval s input saved (.ok s.result) outer).2)).Settled := by
    refine ⟨fun f failed => ?_, direct⟩
    cases failed
  cases r with
  | error f => exact failed f (fault f rfl)
  | ok phase =>
    cases phase with
    | stmtDone => exact beginParse_settled s _ direct
    | eof => exact ended
    | ret => exact ended
    | stmtBlockDone =>
      exact failed _ (Fault.Cause.spares_of_found rfl (by simp [Token.symbol]))
    | _ => exact failed _ (Fault.Cause.spares_of_none rfl)

/-- One step, unless it calls a native function. -/
theorem step_settled {c next : Config H .text} (settled : c.Settled)
    (silent : c.call? host = none) (st : step host c = .inr next) : next.Settled := by
  obtain ⟨s, state, control⟩ := c
  cases control with
  | drive base top below inner outer => exact drive_settled settled silent st
  | program p outer => exact absurd settled id
  | deliver a answer outer =>
    obtain ⟨spares, direct⟩ := settled
    cases outer with
    | idle => cases st
    | call base saved below outer => cases direct
    | script input saved blocks outer =>
      obtain rfl := Sum.inr.inj st
      exact script_settled direct spares
    | enclosed blocks outer =>
      obtain rfl := Sum.inr.inj st
      exact ⟨spares, direct⟩
    | afterEval next outer => cases direct
    | afterParse next outer => cases direct

/-! ### Runs -/

theorem Reaches.settled {c d : Config H .text} {cs : List (Invocation H)} (h : Reaches host c cs d)
    (silent : cs = []) (settled : c.Settled) : d.Settled := by
  induction h with
  | refl => exact settled
  | head st _ ih =>
    obtain ⟨none, silent⟩ := List.append_eq_nil_iff.mp silent
    exact ih silent (step_settled settled (by simpa using none) st)

theorem run_spares {n : Nat} {c : Config H .text} {fin : Finished H .text} (settled : c.Settled)
    (silent : calls host n c = []) (ends : run host n c = some fin) :
    ∀ fault, fin.answer = .error fault → fault.cause.SparesNewlines := by
  induction n generalizing c with
  | zero => cases ends
  | succ n ih =>
    cases st : step host c with
    | inl last =>
      obtain rfl : last = fin := by simpa [run, st] using ends
      rw [eq_of_finished st] at settled
      exact settled.1
    | inr next =>
      have none := call?_of_silent silent
      rw [calls_step st none] at silent
      exact ih (step_settled settled none st) silent (run_step st ends)

def Config.turn? {z : Ask} (c : Config H z) : Option (Frame × Option Phase) :=
  match c.control with
  | .drive _ top _ inner _ => some (top, inner)
  | _ => none

theorem Config.Settled.served {c : Config H .text} (settled : c.Settled) {f : Frame}
    {inner : Option Phase} (turn : c.turn? = some (f, inner)) : f.Served inner c.session.input := by
  obtain ⟨s, state, control⟩ := c
  cases control with
  | drive base top below inner' outer =>
    cases turn
    exact settled.1
  | program p outer => cases turn
  | deliver a answer outer => cases turn

/-- Steps of a run without calls make up such a run. -/
theorem reaches_silent {n : Nat} {c d : Config H .text} (silent : calls host n c = [])
    (h : advance host n c = some d) : Reaches host c [] d := by
  induction n generalizing c with
  | zero =>
    obtain rfl := Option.some.inj h
    exact .refl c
  | succ n ih =>
    have none := call?_of_silent silent
    cases st : step host c with
    | inl fin => simp [advance, st] at h
    | inr next =>
      rw [calls_step st none] at silent
      exact .quiet st none (ih silent ((advance_step st).symm.trans h))

end Machine

namespace Session

open Machine

/-- The lookahead is disciplined. Wherever an evaluation stands that has called no native function,
the frame whose turn it is deals with the reader in order: it puts back only the token that it has
just read, and finds the slot empty, and it reads a newline only where newlines are tokens. Newlines
are put back nonetheless, and read again by other frames; but if the evaluation calls no native
function at all and fails, the fault is not about a newline. -/
theorem eval_lookahead :
    (∀ (H : Type) (host : Host H) (s : Session) (state : H) (enclosed : Bool) (script : String),
      (∀ c f inner, Reaches host (s.evalStart host state enclosed script) [] c →
        c.turn? = some (f, inner) → f.DealsInOrder inner c.session) ∧
      ∀ fuel fin fault t, s.eval host fuel state enclosed script = some fin →
        s.evalCalls host fuel state enclosed script = [] → fin.answer = .error fault →
        fault.cause.found? = some t → t.kind ≠ .newline) ∧
    ∃ (host : Host Unit) (s : Session) (script : String) (c d : Config Unit .text)
      (f g : Frame) (inner inner' : Option Phase) (t : Token),
      Reaches host (s.evalStart host () false script) [] c ∧ step host c = .inr d ∧
      c.turn? = some (f, inner) ∧ d.turn? = some (g, inner') ∧ f.name ≠ g.name ∧
      t.kind = .newline ∧
      (f.act inner c.session).2.journal.head? = some (.token .stmtDone t) ∧
      d.session.input.putback = some t ∧
      (g.act inner' d.session).2.journal.head? = some (.token .stmtDone t) := by
  refine ⟨fun H host s state enclosed script => ⟨?_, ?_⟩, ?_⟩
  · intro c f inner reached turn
    have settled := reached.settled rfl (startEval_settled s state enclosed script)
    exact (settled.served turn).dealsInOrder
  · intro fuel fin fault t ends silent failed found
    rw [eval_eq_run] at ends
    exact run_spares (startEval_settled s state enclosed script) silent ends fault failed t found
  · let host : Host Unit := { natives := fun _ _ => .done () }
    let s : Session := { id := ⟨0, 1⟩ }
    let newline : Token := ⟨.newline, "\n"⟩
    have relayed : ((advance host 4 (s.evalStart host () false "1\n2")).bind fun c =>
        (advance host 1 c).bind fun d => c.turn?.bind fun (f, inner) =>
          d.turn?.map fun (g, inner') => ([f.name, g.name], d.session.input.putback,
            [(f.act inner c.session).2.journal.head?, (g.act inner' d.session).2.journal.head?])) =
        some (["expr", "relexp"], some newline,
          [some (.token .stmtDone newline), some (.token .stmtDone newline)]) := by
      decide +kernel
    have silent : calls host 4 (s.evalStart host () false "1\n2") = [] :=
      List.length_eq_zero_iff.mp (by decide +kernel)
    obtain ⟨c, reached, relayed⟩ := Option.bind_eq_some_iff.mp relayed
    obtain ⟨d, onward, relayed⟩ := Option.bind_eq_some_iff.mp relayed
    obtain ⟨⟨f, inner⟩, turn, relayed⟩ := Option.bind_eq_some_iff.mp relayed
    obtain ⟨⟨g, inner'⟩, turn', relayed⟩ := Option.map_eq_some_iff.mp relayed
    have st : step host c = .inr d := by
      cases st : step host c with
      | inl fin => simp [advance, st] at onward
      | inr next => simpa [advance, st] using onward
    simp only [Prod.mk.injEq, List.cons.injEq, and_true] at relayed
    obtain ⟨⟨first, second⟩, held, put, taken⟩ := relayed
    exact ⟨host, s, "1\n2", c, d, f, g, inner, inner', newline, reaches_silent silent reached, st,
      turn, turn', by rw [first, second]; decide, rfl, put, held, taken⟩

/-- In the second line the frame of the statement acts with a newline put back, and the script fails
in the third line, about what is behind the newline there. -/
theorem eval_lookahead_across :
    let host : Host Unit := { natives := fun _ _ => .done () }
    let s : Session := { id := ⟨0, 1⟩ }
    let script := "x = 1\nif (x\n2) 3"
    (∃ c f inner, Reaches host (s.evalStart host () false script) [] c ∧
      c.turn? = some (f, inner) ∧ c.session.input.putback = some ⟨.newline, "\n"⟩ ∧
      f.DealsInOrder inner c.session) ∧
    ∃ fin fault t, s.eval host 100 () false script = some fin ∧ fin.answer = .error fault ∧
      fault.cause.found? = some t ∧ t.text = "2" ∧ t.kind ≠ .newline := by
  intro host s script
  obtain ⟨order, spares⟩ := eval_lookahead.1 Unit host s () false script
  have silent : s.evalCalls host 100 () false script = [] :=
    List.length_eq_zero_iff.mp (by decide +kernel)
  refine ⟨?_, ?_⟩
  · have held : ((advance host 8 (s.evalStart host () false script)).bind fun c =>
        c.turn?.map fun _ => c.session.input.putback) = some (some ⟨.newline, "\n"⟩) := by
      decide +kernel
    obtain ⟨c, reached, held⟩ := Option.bind_eq_some_iff.mp held
    obtain ⟨⟨f, inner⟩, turn, held⟩ := Option.map_eq_some_iff.mp held
    have quiet : calls host 8 (s.evalStart host () false script) = [] :=
      List.length_eq_zero_iff.mp (by decide +kernel)
    have reached := reaches_silent quiet reached
    exact ⟨c, f, inner, reached, turn, held, order c f inner reached turn⟩
  · have fails : s.failure? host 100 () false script =
        some ⟨.expected .rparen ⟨.literal, "2"⟩, 3⟩ := by
      decide +kernel
    obtain ⟨fin, ends, failed⟩ := failure?_eq_some.mp fails
    exact ⟨fin, _, _, ends, failed, rfl, rfl, spares 100 fin _ _ ends silent failed rfl⟩

end Session

end Scriptlet
