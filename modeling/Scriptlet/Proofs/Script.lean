import Scriptlet.Proofs.Statement

/-!
Scripts. An evaluation begins a parse for every statement until the script ends, a statement returns
or one fails; the blocks that a failed statement left open are closed then.
-/

namespace Scriptlet

variable {H : Type}

open Machine Syntax Act Scriptlet.Frame Meaning

def reading (input : Input) (call : Option Call) (s : Session) (state : H) : Config H .text :=
  ⟨s.enter, state,
    .drive s.depth (newStatement .execute) [] none (.script input call s.scopes.depth .idle)⟩

def Concludes (host : Host H) (input : Input) (call : Option Call) (c : Config H .text)
    (s : Session) (e : Effect Flow) : Prop :=
  ∃ answer s' state' cs, Reaches host c cs ⟨s', state', .deliver .text answer .idle⟩ ∧
    answer.mapError (·.cause) = e.outcome.map (fun _ => e.store.result) ∧
    cs.map Invocation.brief = e.calls ∧
    ∃ token result report,
      s' = { s with input, call, token, result, report, scopes := e.store.scopes } ∧
        ∀ value, answer = .ok value → result = value

section Concludes

variable {host : Host H} {input : Input} {call : Option Call} {s s' : Session} {state : H}
  {e : Effect Flow} {calls : Calls}

/-- A statement runs, and the script is told its answer. -/
theorem Runs.reaches_script (input : Input) (call : Option Call) {r : Except Fault.Cause Phase}
    (run : Runs host "stmt" (stepStatement .execute .start none) s.enter r s' calls) (state : H) :
    ∃ answer state' cs, Reaches host (reading input call s state) cs
        ⟨{ s' with depth := s.depth }, state',
          .deliver .phase answer (.script input call s.scopes.depth .idle)⟩ ∧
      answer.mapError (·.cause) = r ∧ cs.map Invocation.brief = calls := by
  obtain ⟨r', state', cs, comp, hr, hcs⟩ := run [] state
  have reaches : Reaches host (reading input call s state) cs _ :=
    comp.reaches rfl rfl s.depth [] _ rfl
  rw [Session.completed_nil] at reaches
  refine ⟨_, state', cs, reaches, ?_, hcs⟩
  rw [← hr]
  cases r' with
  | ok phase => rfl
  | error fault => exact congrArg Except.error (fault.cause_orLine s'.line)

theorem Runs.reaches_script_ok (input : Input) (call : Option Call) {phase : Phase} {σ : Store}
    (run : Runs host "stmt" (stepStatement .execute .start none) s.enter (.ok phase) s' calls)
    (turned : s.Turned σ s') (state : H) :
    ∃ state' cs, Reaches host (reading input call s state) cs
        ⟨s', state', .deliver .phase (.ok phase) (.script input call s.scopes.depth .idle)⟩ ∧
      cs.map Invocation.brief = calls := by
  obtain ⟨_, token, rfl, _⟩ := turned
  obtain ⟨answer, state', cs, reaches, hanswer, hcs⟩ := run.reaches_script input call state
  cases answer with
  | error fault => cases hanswer
  | ok phase' =>
    cases hanswer
    exact ⟨state', cs, reaches, hcs⟩

/-- The script has ended, or a statement has returned. -/
theorem concludes_done {phase : Phase} {flow : Flow} (last : phase = .eof ∨ phase = .ret)
    (run : Runs host "stmt" (stepStatement .execute .start none) s.enter (.ok phase) s' e.calls)
    (turned : s.Turned e.store s') (out : e.outcome = .ok flow) (state : H) :
    Concludes host input call (reading input call s state) s e := by
  obtain ⟨state', cs, reaches, hcs⟩ := run.reaches_script_ok input call turned state
  have ends : step host ⟨s', state', .deliver .phase (.ok phase)
      (.script input call s.scopes.depth .idle)⟩ =
      .inr ⟨{ s' with input, call }, state', .deliver .text (.ok s'.result) .idle⟩ := by
    rcases last with rfl | rfl <;> rfl
  have whole := reaches.trans (.quiet ends rfl (.refl _))
  rw [List.append_nil] at whole
  obtain ⟨_, token, rfl, _⟩ := turned
  refine ⟨_, _, state', cs, whole, ?_, hcs, token, e.store.result, s.report, rfl, ?_⟩
  · rw [out]
    rfl
  · rintro _ ⟨⟩
    rfl

/-- A statement has failed. -/
theorem concludes_failed {cause : Fault.Cause}
    (run : Runs host "stmt" (stepStatement .execute .start none) s.enter (.error cause) s' e.calls)
    (broken : s.Broken e.store s') (out : e.outcome = .error cause) (state : H) :
    Concludes host input call (reading input call s state) s e := by
  obtain ⟨answer, state', cs, reaches, hanswer, hcs⟩ := run.reaches_script input call state
  cases answer with
  | ok phase => cases hanswer
  | error fault =>
    have cause_eq : fault.cause = cause := Except.error.inj hanswer
    have ends : step host ⟨{ s' with depth := s.depth }, state', .deliver .phase (.error fault)
        (.script input call s.scopes.depth .idle)⟩ =
        .inr ⟨{ Session.recordFault { s' with
              depth := s.depth, scopes := s'.scopes.truncate s.scopes.depth } fault with
            input, call },
          host.absorb [.evalFailed s'.id fault] state', .deliver .text (.error fault) .idle⟩ := rfl
    have whole := reaches.trans (.quiet ends rfl (.refl _))
    rw [List.append_nil] at whole
    obtain ⟨_, token, result, _, _, scopes, rfl, left⟩ := broken
    refine ⟨_, _, _, cs, whole, ?_, hcs, ?_⟩
    · rw [out, ← cause_eq]
      rfl
    · rw [← left]
      exact ⟨token, result, _, rfl, by rintro _ ⟨⟩⟩

theorem beginParse_statement {z : Ask} (room : s.depth < s.limits.maxDepth)
    (outer : Waiting H z .phase) :
    beginParse s .stmt .execute outer =
      (s.enter, .drive s.depth (newStatement .execute) [] none outer) :=
  Session.beginParse_start room rfl outer

/-- A statement has been executed, and the script goes on behind it. -/
theorem concludes_next {e₁ e₂ : Effect Flow} (room : s.depth < s.limits.maxDepth)
    (run : Runs host "stmt" (stepStatement .execute .start none) s.enter (.ok .stmtDone) s'
      e₁.calls)
    (turned : s.Turned e₁.store s') (state : H)
    (next : ∀ state', Concludes host input call (reading input call s' state') s' e₂) :
    Concludes host input call (reading input call s state) s
      { e₂ with calls := e₁.calls ++ e₂.calls } := by
  obtain ⟨state', cs, reaches, hcs⟩ := run.reaches_script_ok input call turned state
  obtain ⟨answer, fin, last, ds, later, hanswer, hds, token', result, report, hfin⟩ := next state'
  have goes : step host ⟨s', state', .deliver .phase (.ok .stmtDone)
      (.script input call s.scopes.depth .idle)⟩ = .inr (reading input call s' state') := by
    have room' : s'.depth < s'.limits.maxDepth := by
      obtain ⟨_, _, rfl, _⟩ := turned
      exact room
    have blocks : s'.scopes.depth = s.scopes.depth := by
      obtain ⟨_, _, rfl, same⟩ := turned
      exact ScopeStack.depth_eq same
    simp only [Machine.step, deliverStep, scriptStep, beginParse_statement room', reading, blocks]
    rfl
  have whole := reaches.trans (.quiet goes rfl later)
  obtain ⟨_, token, rfl, _⟩ := turned
  refine ⟨answer, fin, last, cs ++ ds, whole, hanswer, ?_, token', result, report, hfin⟩
  rw [List.map_append, hcs, hds]

end Concludes

variable {lib : Library} {observe : Event → H → H} {input : Input} {call : Option Call} {n : Nat}

theorem Syntax.Stmts.concludes {s : Session} {e : Effect Flow} {j behind : Input} : (p : Stmts) →
    p.depth ≤ n → 0 < n → s.Fits lib n → s.input.Streams (p.lexemes.map Lexeme.token) j →
    (∀ phase, j.next phase = (.eof, behind)) → p.exec lib s.store e → (state : H) →
    Concludes (.ofNatives lib.natives observe) input call (reading input call s state) s e
  | .nil, _, positive, fits, read, last, meaning, state => by
    obtain rfl : e = ⟨.ok .normal, s.store, []⟩ := meaning
    have next : s.input.next .stmt = (.eof, behind) := (read _).trans (last _)
    have ends : Runs (.ofNatives lib.natives observe) "stmt" (stepStatement .execute .start none)
        s.enter (.ok .eof) { s with input := behind, token := .eof } [] :=
      .gives (gives_nextToken next (by decide)) (.done .eof _)
    exact concludes_done (.inl rfl) ends (.read s behind .eof) rfl state
  | .cons first rest, shallow, positive, fits, read, last, meaning, state => by
    rw [Stmts.depth] at shallow
    rw [Stmts.lexemes, List.map_append] at read
    obtain ⟨i, read, later⟩ := read.split
    have free : j.Detached true := fun _ => ⟨.eof, behind, last, by decide⟩
    obtain ⟨e₁, inner, total⟩ := meaning
    have performs : Performs (.ofNatives lib.natives observe) "stmt"
        (stepStatement .execute .start none) s.enter e₁ (Flow.phase .stmtDone) i :=
      first.enacts.performs (fits.mono (by omega)) read (rest.detached later free) inner
    cases he₁ : e₁.outcome with
    | error cause =>
      simp only [Effect.Then, he₁] at total
      subst total
      obtain ⟨s', broken, run⟩ := performs.error he₁
      exact concludes_failed (e := ⟨.error cause, e₁.store, e₁.calls⟩) run broken.of_enter rfl state
    | ok flow =>
      simp only [Effect.Then, he₁] at total
      obtain ⟨e₂, allowed, rfl⟩ := total
      obtain ⟨s₁, turned, place, run⟩ := performs.ok he₁
      have turned := turned.leave
      have store := turned.store_eq
      cases flow with
      | returned =>
        obtain rfl := allowed
        rw [List.append_nil]
        exact concludes_done (e := ⟨.ok .returned, e₁.store, e₁.calls⟩) (.inr rfl) run turned rfl
          state
      | normal =>
        rw [← store] at allowed
        refine concludes_next (fits.pos positive) run turned state fun state' => ?_
        exact rest.concludes (by omega) positive (turned.fits fits)
          ((place (by simp [Flow.phase])).append later) last allowed state'

/-- The script of a program is read back as its lexemes, and then it ends. -/
theorem Syntax.Stmts.streams (p : Stmts) : ∃ j behind,
    (Input.ofScript (Lexeme.render p.lexemes)).Streams (p.lexemes.map Lexeme.token) j ∧
      ∀ phase, j.next phase = (.eof, behind) := by
  have gap : Lexer.Gap [] := by rintro _ ⟨⟩
  have nothing : Lexeme.Spaced false [] := trivial
  have spaced := p.spaced nothing
  rw [List.append_nil] at spaced
  have read := Lexeme.streams_render gap {} spaced
  rw [List.append_nil] at read
  exact ⟨_, _, read, fun _ => rfl⟩

namespace Session

/-- Evaluating the text of a program has an effect that its tree allows, if the session has room for
the constructs that are open at a time. -/
theorem eval_executes (natives : Natives) (observe : Event → H → H) (state : H) (s : Session)
    (p : Stmts) {e : Effect Flow} (room : s.depth + max 1 p.depth ≤ s.limits.maxDepth)
    (meaning : p.exec ⟨s.functions, natives⟩ ⟨s.scopes, ""⟩ e) :
    let host := Host.ofNatives natives observe
    let script := Lexeme.render p.lexemes
    ∃ n, ∀ fuel, n ≤ fuel → ∃ fin, s.eval host fuel state false script = some fin ∧
      fin.answer.mapError (·.cause) = e.outcome.map (fun _ => e.store.result) ∧
      (s.evalCalls host fuel state false script).map Invocation.brief = e.calls ∧
      ∃ token result report,
        fin.session = { s with scopes := e.store.scopes, token, result, report } ∧
          ∀ value, fin.answer = .ok value → result = value := by
  intro host script
  obtain ⟨j, behind, read, last⟩ := p.streams
  let start : Session :=
    { s with input := .ofScript script, call := none, result := "", report := none }
  have fits : start.Fits ⟨s.functions, natives⟩ (max 1 p.depth) := ⟨rfl, room⟩
  have first : start.depth < start.limits.maxDepth := fits.pos (by omega)
  have begins : ∀ outer : Waiting H .text .text, startEval s false script outer =
      (start.enter, [.eval s.id script.utf8ByteSize], .drive start.depth (newStatement .execute) []
        none (.script s.input s.call start.scopes.depth outer)) := by
    intro outer
    simp only [startEval, beginEval]
    rw [beginParse_statement first]
    rfl
  have concludes : Concludes host s.input s.call (reading s.input s.call start
      (host.absorb [.eval s.id script.utf8ByteSize] state)) start e :=
    p.concludes (Nat.le_max_right _ _) (by omega) fits read last meaning _
  obtain ⟨answer, s', state', cs, reaches, hanswer, hcs, token, result, report, hs'⟩ := concludes
  obtain ⟨n, hn⟩ := reaches.run_eq
  refine ⟨n + 1, fun fuel le => ⟨⟨answer, s', state'⟩, ?_, hanswer, ?_, token, result, report, hs'⟩⟩
  all_goals obtain ⟨m, rfl⟩ : ∃ m, fuel = n + (m + 1) := ⟨fuel - n - 1, by omega⟩
  · simp only [eval, begins]
    exact (hn (m + 1)).1
  · simp only [evalCalls, begins]
    have calls := (hn (m + 1)).2
    rw [calls_deliver_idle, List.append_nil] at calls
    rw [← hcs, ← calls]
    rfl

theorem eval_executes_loop :
    let s : Session :=
      { id := ⟨0, 1⟩, functions := Table.insert {} "f" ⟨"k", false⟩,
        scopes := ScopeStack.setGlobal {} "x" "1" }
    let natives : Natives := fun _ args => .ok (String.join args)
    let x : Cond := .operand (.operand (.operand (.variable ⟨"x", rfl⟩)))
    let call : Cond := .operand (.operand (.operand (.call ⟨"f", rfl⟩ (.cons x .nil))))
    let down : Simple := .bump ⟨"x", rfl⟩ ⟨.decrement, by decide⟩
    let body : Stmts := .cons (.simple (.expr call)) .nil
    let p : Stmts :=
      .cons (.loop .none (some x) (some down) (.block body)) (.cons (.ret (some x)) .nil)
    let script := Lexeme.render p.lexemes
    let host := Host.ofNatives natives fun _ (u : Unit) => u
    script = "for ( ; x ; x -- ) { f ( x ) ; } return x ;" ∧
      ∃ n, ∀ fuel, n ≤ fuel → ∃ fin, s.eval host fuel () false script = some fin ∧
        fin.answer.toOption = some "0" ∧
        (s.evalCalls host fuel () false script).map Invocation.brief = [("k", ["1"])] ∧
        fin.session.scopes.get? "x" = some "0" := by
  intro s natives x call down body p script host
  let lib : Library := ⟨s.functions, natives⟩
  let left : ScopeStack := s.scopes.openBlock.2.truncate 0
  let low : ScopeStack := left.assign "x" "0"
  have one : Value.truthy "1" = true := by decide +kernel
  have zero : Value.truthy "0" = false := by decide +kernel
  have lowered : bumped left "x" .decrement = .ok "0" := by
    have value : (bumped left "x" .decrement).toOption = some "0" := by decide +kernel
    cases h : bumped left "x" .decrement with
    | ok v =>
      rw [h] at value
      exact congrArg _ (Option.some.inj value)
    | error cause =>
      rw [h] at value
      cases value
  have goes : test lib (some x) ⟨s.scopes, ""⟩ ⟨.ok (Value.truthy "1"), ⟨s.scopes, "1"⟩, []⟩ :=
    ⟨_, Cond.value_ok rfl, _, rfl, rfl⟩
  have stops : test lib (some x) ⟨low, "0"⟩ ⟨.ok (Value.truthy "0"), ⟨low, "0"⟩, []⟩ :=
    ⟨_, Cond.value_ok rfl, _, rfl, rfl⟩
  rw [one] at goes
  rw [zero] at stops
  have inside : body.exec lib ⟨s.scopes.openBlock.2, "1"⟩
      ⟨.ok .normal, ⟨s.scopes.openBlock.2, "1"⟩, [("k", ["1"])]⟩ :=
    ⟨_, ⟨_, ⟨_, Cond.value_ok rfl, _, rfl, rfl⟩, _, rfl, rfl⟩, _, rfl, rfl⟩
  have block : enclosed (body.exec lib) ⟨s.scopes, "1"⟩
      ⟨.ok .normal, ⟨left, "1"⟩, [("k", ["1"])]⟩ := ⟨_, inside, rfl⟩
  have reads : compute (fun σ => bumped σ.scopes "x" .decrement) ⟨left, "1"⟩
      ⟨.ok "0", ⟨left, "1"⟩, []⟩ :=
    congrArg (fun r => (⟨r, ⟨left, "1"⟩, []⟩ : Effect String)) lowered.symm
  have lowers : increment lib (some down) ⟨left, "1"⟩ ⟨.ok (), ⟨low, "0"⟩, []⟩ :=
    ⟨_, reads, _, rfl, rfl⟩
  have first : turn (test lib (some x)) (enclosed (body.exec lib)) (increment lib (some down))
      ⟨s.scopes, ""⟩ ⟨.ok none, ⟨low, "0"⟩, [("k", ["1"])]⟩ :=
    ⟨_, goes, _, ⟨_, block, _, ⟨_, lowers, _, rfl, rfl⟩, rfl⟩, rfl⟩
  have second : turn (test lib (some x)) (enclosed (body.exec lib)) (increment lib (some down))
      ⟨low, "0"⟩ ⟨.ok (some .normal), ⟨low, "0"⟩, []⟩ :=
    ⟨_, stops, _, rfl, rfl⟩
  have loops : loop (test lib (some x)) (enclosed (body.exec lib)) (increment lib (some down))
      ⟨s.scopes, ""⟩ ⟨.ok .normal, ⟨low, "0"⟩, [("k", ["1"])]⟩ :=
    Repeats.again first (.leaves second)
  have returns : Stmts.exec lib (.cons (.ret (some x)) .nil) ⟨low, "0"⟩
      ⟨.ok .returned, ⟨low, "0"⟩, []⟩ :=
    ⟨_, ⟨_, Cond.value_ok rfl, _, rfl, rfl⟩, _, rfl, rfl⟩
  have meaning : p.exec lib ⟨s.scopes, ""⟩ ⟨.ok .returned, ⟨low, "0"⟩, [("k", ["1"])]⟩ :=
    ⟨_, ⟨_, rfl, _, loops, rfl⟩, _, returns, rfl⟩
  obtain ⟨n, enough⟩ := eval_executes natives (fun _ (u : Unit) => u) () s p (by decide) meaning
  refine ⟨by decide +kernel, n, fun fuel le => ?_⟩
  obtain ⟨fin, evaluated, answer, calls, token, result, report, session, _⟩ := enough fuel le
  refine ⟨fin, evaluated, ?_, calls, ?_⟩
  · cases h : fin.answer with
    | ok value =>
      rw [h] at answer
      exact congrArg some (Except.ok.inj answer)
    | error fault =>
      rw [h] at answer
      cases answer
  · rw [session]
    rfl

end Session

end Scriptlet
