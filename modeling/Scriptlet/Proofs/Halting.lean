import Scriptlet.Proofs.Scan
import Scriptlet.Proofs.Spending

/-!
Why parsing halts. Every step lowers a measure made of the tokens ahead and the construct on top of
the stack, as long as no loop goes back in the script. So a scan halts whatever the text, and so
does the evaluation of a script without loops that calls nothing.
-/

namespace Scriptlet

namespace Machine

variable {H : Type} {z : Ask} {host : Host H} {loops : Bool}

/-- A run comes to its end, or to a native call. -/
def Halts (host : Host H) (c : Config H z) : Prop :=
  ∃ n, (∃ fin, run host n c = some fin) ∨ calls host n c ≠ []

namespace Halts

theorem of_step {c next : Config H z} (st : step host c = .inr next) (h : Halts host next) :
    Halts host c := by
  obtain ⟨n, ⟨fin, ends⟩ | some⟩ := h
  · exact ⟨n + 1, .inl ⟨fin, by simpa [run, st] using ends⟩⟩
  · exact ⟨n + 1, .inr (by simp [calls, st, some])⟩

theorem of_call {c next : Config H z} {i : Invocation H} (st : step host c = .inr next)
    (called : c.call? host = some i) : Halts host c :=
  ⟨1, .inr (by simp [calls, st, called])⟩

theorem deliver_idle (s : Session) (state : H) (answer : Except Fault z.Answer) :
    Halts host ⟨s, state, .deliver z answer .idle⟩ := ⟨1, .inl ⟨_, rfl⟩⟩

/-- If there is no call, the run ends, given steps enough. -/
theorem ends {c : Config H z} (h : Halts host c) (none : ∀ n, calls host n c = []) :
    ∃ n, ∀ fuel, n ≤ fuel → ∃ fin, run host fuel c = some fin := by
  obtain ⟨n, ⟨fin, ends⟩ | some⟩ := h
  · exact ⟨n, fun fuel le => ⟨fin, (run_mono ends le).1⟩⟩
  · exact absurd (none n) some

end Halts

def Left (loops : Bool) (f : Frame) (n : Nat) (r : Except Fault Phase) (s : Session) : Prop :=
  ∀ phase, r = .ok phase → ∃ m, s.input.Within loops m ∧
    if phase = .eof then f.MayEnd else m + f.due ≤ n

/-- What a frame leaves is left by the frame it comes from, if the tokens taken in between pay for
the difference. -/
theorem Left.of_paid {f self : Frame} {m n : Nat} {r : Except Fault Phase} {s : Session}
    (left : Left loops self m r s) (ends : self.MayEnd → f.MayEnd)
    (paid : m + f.due ≤ n + self.due) : Left loops f n r s := by
  intro phase ok
  obtain ⟨k, inside, bound⟩ := left phase ok
  refine ⟨k, inside, ?_⟩
  by_cases ended : phase = .eof
  · rw [if_pos ended] at bound ⊢
    exact ends bound
  · rw [if_neg ended] at bound ⊢
    omega

/-- A run halts if it halts from wherever its top frame may have completed. -/
theorem drive_halts {outer : Waiting H z .phase} (direct : outer.inNative = false) (base : Nat)
    (limit : Nat) : ∀ {top : Frame} {inner : Option Phase} {n : Nat} {s : Session} {state : H}
    {below : List Frame}, top.measure inner.isSome n < limit → top.Calm loops →
    s.input.Within loops n →
    (∀ r s' state', Left loops top n r s' → Halts host (completed base below outer r s' state')) →
    Halts host ⟨s, state, .drive base top below inner outer⟩ := by
  -- On the measure: a frame that is pushed has a lower one, and so has the frame below it by the
  -- time it goes on.
  induction limit with
  | zero => intro _ _ _ _ _ _ no; omega
  | succ limit ih =>
    intro top inner n s state below bounded calm within rest
    have spends := Frame.step_spends calm inner n { session := s } within
    have fails : ∀ fault s' state',
        Halts host (completed base below outer (.error fault) s' state') :=
      fun fault s' state' => rest _ _ _ (by rintro _ ⟨⟩)
    rcases hact : top.act inner s with ⟨fault | move, scene⟩
    · exact .of_step (step_fault hact) (fails _ _ _)
    · obtain ⟨m, inside, spent⟩ := spends move scene hact
      cases move with
      | done phase =>
        refine .of_step (step_done hact) (rest _ _ _ ?_)
        rintro _ ⟨⟩
        exact ⟨m, inside, spent⟩
      | stay self =>
        obtain ⟨calm', ends, lower, paid⟩ := spent
        simp only [Frame.means] at ends lower paid
        refine .of_step (step_stay hact) (ih (by simpa using by omega) calm' inside ?_)
        exact fun r s' state' left => rest r s' state' (left.of_paid ends (by omega))
      | push self child =>
        obtain ⟨calm', calmChild, begun, more, lower, later, paid⟩ := spent
        simp only [Frame.means] at lower later paid
        by_cases room : scene.session.depth < scene.session.limits.maxDepth
        · refine .of_step (step_push hact room) (ih (by simpa using by omega) calmChild inside ?_)
          intro r s₁ state₁ left
          cases r with
          | error fault => exact fails fault s₁ state₁
          | ok phase =>
            obtain ⟨k, inside, bound⟩ := left phase rfl
            by_cases ended : phase = .eof
            · rw [if_pos ended] at bound
              obtain ⟨fault, scene', refused⟩ := more bound s₁
              subst ended
              exact .of_step (step_fault refused) (fails _ _ _)
            · rw [if_neg ended] at bound
              have lower' : self.measure true k < limit := by
                simp only [Frame.measure] at bounded later ⊢
                omega
              refine ih lower' calm' inside fun r s' state' left => ?_
              exact rest r s' state' (left.of_paid (fun may => absurd may begun) (by omega))
        · exact .of_step (step_limit hact (Nat.not_lt.mp room)) (fails _ _ _)
      | invoke target args saved => exact .of_call (step_invoke hact) (call?_invoke direct hact)

/-- Parsing halts if frames of its kind are calm and whatever waits for the answer halts. -/
theorem beginParse_halts (outer : Waiting H z .phase) (direct : outer.inNative = false) {n : Nat}
    {s : Session} (state : H) {start : Phase} {flags : Flags}
    (calm : ∀ frame, Frame.start flags start = .ok frame → frame.Calm loops)
    (within : s.input.Within loops n)
    (rest : ∀ answer s' state', (∀ phase, answer = .ok phase → ∃ frame,
        Frame.start flags start = .ok frame ∧ Left loops frame n answer s') →
      Halts host ⟨s', state', .deliver .phase answer outer⟩) :
    Halts host ⟨(beginParse s start flags outer).1, state, (beginParse s start flags outer).2⟩ := by
  rcases Session.begins_or_refused s start flags with ⟨room, frame, hstart⟩ | refused
  · rw [Session.beginParse_start room hstart]
    refine drive_halts direct s.depth _ (Nat.lt_succ_self _) (calm frame hstart) within ?_
    intro r s' state' left
    rw [Session.completed_nil]
    refine rest _ _ _ fun phase ok => ⟨frame, hstart, ?_⟩
    cases r with
    | error fault => cases ok
    | ok phase => exact left
  · obtain ⟨fault, -, hbegin⟩ := Session.beginParse_refused refused
    rw [hbegin outer]
    exact rest _ _ _ (by rintro _ ⟨⟩)

theorem start_calm {start : Phase} {frame : Frame} (h : Frame.start .none start = .ok frame) :
    frame.Calm true := by
  cases start <;> simp only [Frame.start, Except.ok.injEq, reduceCtorEq] at h <;>
    exact h ▸ ⟨by simp [Frame.newStatement, Frame.newCond, Frame.newRel, Frame.newExpr], trivial⟩

/-- A script without loops halts: every statement but the last takes at least one token. -/
theorem script_halts (outer : Waiting H z .text) (direct : outer.inNative = false)
    (rest : ∀ answer s state, Halts host ⟨s, state, .deliver .text answer outer⟩) (input : Input)
    (call : Option Call) (blocks : Nat) (n : Nat) : ∀ (s : Session) (state : H),
    s.input.Within false n →
    let begun := beginParse s .stmt .execute (.script input call blocks outer)
    Halts host ⟨begun.1, state, begun.2⟩ := by
  induction n using Nat.strongRecOn with
  | ind n ih =>
    intro s state within
    refine beginParse_halts (.script input call blocks outer) direct state ?_ within ?_
    · rintro _ ⟨⟩
      exact ⟨fun _ => rfl, trivial⟩
    · intro answer s' state' left
      have goes : step host ⟨s', state', .deliver .phase answer (.script input call blocks outer)⟩ =
          .inr (resume host state' (scriptStep s' input call blocks answer outer)) := rfl
      refine .of_step goes ?_
      cases answer with
      | error fault => exact rest _ _ _
      | ok phase =>
        obtain ⟨frame, hstart, left⟩ := left phase rfl
        obtain rfl := Except.ok.inj hstart
        obtain ⟨m, inside, bound⟩ := left phase rfl
        cases phase with
        | stmtDone => exact ih m bound s' _ inside
        | _ => exact rest _ _ _

end Machine

namespace Session

open Machine

variable {H : Type}

/-- Scanning halts on every session and every text, whatever it starts with; and so does evaluation
of a script without a `for` that calls no native function. -/
theorem parsing_halts (host : Host H) (s : Session) (state : H) :
    (∀ start, ∃ n, ∀ fuel, n ≤ fuel → ∃ fin, s.parse host fuel state start .none = some fin) ∧
    ∀ enclosed script, (∀ t ∈ (Input.ofScript script).tokens, t.kind ≠ .forWord) →
      (∀ fuel, s.evalCalls host fuel state enclosed script = []) →
      ∃ n, ∀ fuel, n ≤ fuel → ∃ fin, s.eval host fuel state enclosed script = some fin := by
  constructor
  · intro start
    have scanning := beginParse_scanning s state start
    refine Halts.ends ?_ fun n => (run_scanning scanning).1
    have within : s.input.Within true s.input.ahead.length :=
      ⟨fun _ _ => by simp [Token.Admitted], Nat.le_refl _⟩
    refine beginParse_halts .idle rfl state (fun frame => start_calm) within ?_
    exact fun answer s' state' _ => .deliver_idle (z := .phase) s' state' answer
  · intro enclosed script loopFree silent
    have within := Input.within_ofScript loopFree
    refine Halts.ends ?_ silent
    cases enclosed with
    | false =>
      refine script_halts .idle rfl ?_ s.input s.call s.scopes.depth _ _ _ within
      exact fun answer s' state' => .deliver_idle (z := .text) s' state' answer
    | true =>
      refine script_halts (.enclosed s.scopes.depth .idle) rfl ?_ s.input s.call
        (s.scopes.depth + 1) _ _ _ within
      intro answer s' state'
      exact .of_step (step_deliver s' state' answer _) (.deliver_idle _ _ _)

theorem parsing_halts_truncated :
    let host : Host Unit := { natives := fun _ _ => .done () }
    let s : Session := { id := ⟨0, 1⟩, input := .ofScript "for (;; x++ \x7b for" }
    let script := "x = 1\nif (x) \x7b y = (x +"
    (∃ n, ∀ fuel, n ≤ fuel → ∃ fin, s.parse host fuel () .stmt .none = some fin) ∧
      ∃ n, ∀ fuel, n ≤ fuel → ∃ fin, s.eval host fuel () false script = some fin := by
  intro host s script
  have ends : (s.eval host 100 () false script).isSome = true := by decide +kernel
  obtain ⟨fin, evaluated⟩ := Option.isSome_iff_exists.mp ends
  have silent : (s.evalCalls host 100 () false script).length = 0 := by decide +kernel
  have halts := parsing_halts host s ()
  refine ⟨halts.1 .stmt, halts.2 false script (by decide +kernel) fun fuel => ?_⟩
  exact calls_eq_nil evaluated (List.length_eq_zero_iff.mp silent) fuel

end Session

end Scriptlet
