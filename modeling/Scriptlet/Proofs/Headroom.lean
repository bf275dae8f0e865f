import Scriptlet.Proofs.Depth

/-!
Raising the ceiling. Frames do not see the limits of a session, so two evaluations under different
ones run in lockstep until the lower ceiling stops the first. What it stops fails for that cause and
no other: an evaluation that ends in any other way ends so under the higher ceiling.
-/

namespace Scriptlet

namespace Machine

variable {H : Type} {z : Ask} {host : Host H} {limits : Limits}

/-! ### The ceiling as the cause -/

/-- Without native functions a fault goes through to the end. -/
theorem answer_of_fault {a : Ask} {w : Waiting H z a} (direct : w.inNative = false) {n : Nat}
    {s : Session} {state : H} {fault : Fault} {fin : Finished H z}
    (h : run host n ⟨s, state, .deliver a (.error fault) w⟩ = some fin) :
    fin.answer = .error fault := by
  induction w generalizing n s state with
  | idle =>
    cases n with
    | zero => cases h
    | succ n =>
      cases h
      rfl
  | script input call blocks outer ih =>
    cases n with
    | zero => cases h
    | succ n => exact ih direct h
  | enclosed blocks outer ih =>
    cases n with
    | zero => cases h
    | succ n => exact ih direct h
  | call => cases direct
  | afterEval => cases direct
  | afterParse => cases direct

inductive Config.Hit : Config H z → Prop where
  | mk {s state line} {w : Waiting H z .phase} : w.inNative = false →
      Hit ⟨s, state, .deliver .phase (.error ⟨.recursionLimit, line⟩) w⟩

/-! ### Lockstep -/

inductive Config.Raised (limits : Limits) : Config H z → Config H z → Prop where
  | drive {s state base top below inner outer} :
      s.limits.maxDepth ≤ limits.maxDepth → outer.inNative = false →
      Raised limits ⟨s, state, .drive base top below inner outer⟩
        ⟨{ s with limits }, state, .drive base top below inner outer⟩
  | deliver {s state a answer outer} :
      s.limits.maxDepth ≤ limits.maxDepth → outer.inNative = false →
      Raised limits ⟨s, state, .deliver a answer outer⟩
        ⟨{ s with limits }, state, .deliver a answer outer⟩

/-- The second run does what the first does, unless that hits the ceiling. -/
inductive Follows (limits : Limits) :
    Finished H z ⊕ Config H z → Finished H z ⊕ Config H z → Prop where
  | ended {answer s state} :
      Follows limits (.inl ⟨answer, s, state⟩) (.inl ⟨answer, { s with limits }, state⟩)
  | onward {c d} : c.Raised limits d → Follows limits (.inr c) (.inr d)
  | hit {c last} : c.Hit → Follows limits (.inr c) last

theorem completed_raised {s : Session} {base : Nat} {below : List Frame}
    {outer : Waiting H z .phase} (higher : s.limits.maxDepth ≤ limits.maxDepth)
    (direct : outer.inNative = false) (r : Except Fault Phase) (state : H) :
    (completed base below outer r s state).Raised limits
      (completed base below outer r { s with limits } state) := by
  cases r with
  | error fault => exact .deliver (s := { s with depth := base }) higher direct
  | ok phase =>
    cases below with
    | nil => exact .deliver (s := { s with depth := base }) higher direct
    | cons next rest => exact .drive higher direct

section Drive

variable {s : Session} {state : H} {base : Nat} {top : Frame} {below : List Frame}
  {inner : Option Phase} {outer : Waiting H z .phase}

theorem drive_follows (higher : s.limits.maxDepth ≤ limits.maxDepth)
    (direct : outer.inNative = false)
    (silent : Config.call? host ⟨s, state, .drive base top below inner outer⟩ = none) :
    Follows limits (step host ⟨s, state, .drive base top below inner outer⟩)
      (step host ⟨{ s with limits }, state, .drive base top below inner outer⟩) := by
  have right := top.act_under inner s limits
  obtain ⟨-, same⟩ := top.act_depth inner s
  rcases left : top.act inner s with ⟨r, scene⟩
  rw [left] at right same
  have higher' : scene.session.limits.maxDepth ≤ limits.maxDepth := by
    rwa [show scene.session.limits = s.limits from same]
  rcases r with fault | move
  · rw [step_fault left, step_fault right]
    exact .onward (completed_raised higher' direct _ _)
  · cases move with
    | done phase =>
      rw [step_done left, step_done right]
      exact .onward (completed_raised (s := scene.session.leave) higher' direct _ _)
    | stay self =>
      rw [step_stay left, step_stay right]
      exact .onward (.drive higher' direct)
    | push self child =>
      by_cases room : scene.session.depth < scene.session.limits.maxDepth
      · have room' : (scene.under limits).session.depth <
            (scene.under limits).session.limits.maxDepth := Nat.lt_of_lt_of_le room higher'
        rw [step_push left room, step_push right room']
        exact .onward (.drive (s := scene.session.enter) higher' direct)
      · rw [step_limit left (Nat.not_lt.mp room)]
        exact .hit (.mk direct)
    | invoke target args saved =>
      rw [call?_invoke direct left] at silent
      cases silent

end Drive

/-- A parse begins in both runs, unless there is no room for it in the first. -/
theorem beginParse_follows {s : Session} (higher : s.limits.maxDepth ≤ limits.maxDepth)
    (flags : Flags) {outer : Waiting H z .phase} (direct : outer.inNative = false) (state : H) :
    Follows limits
      (.inr ⟨(beginParse s .stmt flags outer).1, state, (beginParse s .stmt flags outer).2⟩)
      (.inr ⟨(beginParse { s with limits } .stmt flags outer).1, state,
        (beginParse { s with limits } .stmt flags outer).2⟩) := by
  by_cases room : s.depth < s.limits.maxDepth
  · have room' : { s with limits }.depth < { s with limits }.limits.maxDepth :=
      Nat.lt_of_lt_of_le room higher
    rw [Session.beginParse_start room rfl, Session.beginParse_start room' rfl]
    exact .onward (.drive (s := s.enter) higher direct)
  · simp only [beginParse, if_pos (Nat.not_lt.mp room)]
    exact .hit (.mk direct)

theorem script_follows {s : Session} {state : H} {input : Input} {saved : Option Call}
    {blocks : Nat} {outer : Waiting H z .text} (higher : s.limits.maxDepth ≤ limits.maxDepth)
    (direct : outer.inNative = false) (r : Except Fault Phase) :
    Follows limits
      (step host ⟨s, state, .deliver .phase r (.script input saved blocks outer)⟩)
      (step host ⟨{ s with limits }, state, .deliver .phase r (.script input saved blocks outer)⟩)
    := by
  have failed : ∀ fault, Follows limits
      (.inr (resume host state (failEval s input saved blocks fault outer)))
      (.inr (resume host state (failEval { s with limits } input saved blocks fault outer))) :=
    fun fault =>
      .onward (.deliver (s := (failEval s input saved blocks fault outer).1) higher direct)
  have ended : Follows limits
      (.inr (resume host state ((endEval s input saved (.ok s.result) outer).1, [],
        (endEval s input saved (.ok s.result) outer).2)))
      (.inr (resume host state ((endEval { s with limits } input saved (.ok s.result) outer).1, [],
        (endEval { s with limits } input saved (.ok s.result) outer).2))) :=
    .onward (.deliver (s := { s with input, call := saved }) higher direct)
  rcases r with fault | phase
  · exact failed fault
  · cases phase with
    | stmtDone => exact beginParse_follows higher .execute direct _
    | eof => exact ended
    | ret => exact ended
    | _ => exact failed _

/-- One step of both runs. -/
theorem step_follows {c d : Config H z} (raised : c.Raised limits d)
    (silent : c.call? host = none) : Follows limits (step host c) (step host d) := by
  cases raised with
  | drive higher direct => exact drive_follows higher direct silent
  | @deliver s _ _ answer outer higher direct =>
    cases outer with
    | idle => exact .ended
    | script input saved blocks outer => exact script_follows higher direct answer
    | enclosed blocks outer =>
      exact .onward (.deliver (s := { s with scopes := s.scopes.truncate blocks }) higher direct)
    | call => cases direct
    | afterEval => cases direct
    | afterParse => cases direct

theorem startEval_follows {s : Session} (higher : s.limits.maxDepth ≤ limits.maxDepth) (state : H)
    (enclosed : Bool) (script : String) :
    Follows limits (.inr (resume host state (startEval s enclosed script .idle)))
      (.inr (resume host state (startEval { s with limits } enclosed script .idle) :
        Config H .text)) := by
  have direct : ∀ blocks (outer : Waiting H .text .text), outer.inNative = false →
      (Waiting.script s.input s.call blocks outer).inNative = false := fun _ _ h => h
  cases enclosed with
  | false =>
    exact beginParse_follows
      (s := { s with input := .ofScript script, call := none, result := "", report := none })
      higher .execute (direct s.scopes.depth .idle rfl) _
  | true =>
    exact beginParse_follows
      (s := { s with
        scopes := s.scopes.openBlock.2, input := .ofScript script, call := none, result := "",
        report := none })
      higher .execute (direct s.scopes.openBlock.2.depth (.enclosed s.scopes.depth .idle) rfl) _

/-- Both runs end with the same step, unless the first comes up against its ceiling. -/
theorem run_follows {n : Nat} {c d : Config H z} {fin : Finished H z} (raised : c.Raised limits d)
    (silent : calls host n c = []) (ends : run host n c = some fin)
    (other : ∀ fault, fin.answer = .error fault → fault.cause ≠ .recursionLimit) :
    run host n d = some { fin with session := { fin.session with limits } } := by
  induction n generalizing c d with
  | zero => cases ends
  | succ n ih =>
    have none := call?_of_silent silent
    have follows := step_follows raised none
    cases left : step host c with
    | inl last =>
      obtain rfl : last = fin := by simpa [run, left] using ends
      rw [left] at follows
      generalize right : step host d = there at follows
      cases follows with
      | ended => simp only [run, right]
    | inr next =>
      rw [calls_step left none] at silent
      have ends := run_step left ends
      rw [left] at follows
      generalize right : step host d = there at follows
      cases follows with
      | onward raised => simp only [run, right, ih raised silent ends]
      | hit stopped =>
        cases stopped with
        | mk direct => exact absurd rfl (other _ (answer_of_fault direct ends))

end Machine

namespace Session

open Machine

variable {H : Type}

/-- Raising the ceiling only removes ceiling errors. A script that calls no native function and does
not come up against the ceiling is evaluated in as many steps under a higher one. The answer is the
same, a fault with its line, and so is everything else of the session: the report, the result, the
tables and the open blocks. -/
theorem eval_raised (host : Host H) (fuel : Nat) (s : Session) (state : H) (enclosed : Bool)
    (script : String) (limits : Limits) (higher : s.limits.maxDepth ≤ limits.maxDepth)
    (fin : Finished H .text) (ends : s.eval host fuel state enclosed script = some fin)
    (silent : s.evalCalls host fuel state enclosed script = [])
    (other : ∀ fault, fin.answer = .error fault → fault.cause ≠ .recursionLimit) :
    { s with limits }.eval host fuel state enclosed script =
      some { fin with session := { fin.session with limits } } := by
  have ends : run host fuel (evalStart host s state enclosed script) = some fin := ends
  have follows : Follows limits (.inr (evalStart host s state enclosed script))
      (.inr (evalStart host { s with limits } state enclosed script)) :=
    startEval_follows higher state enclosed script
  generalize start : evalStart host s state enclosed script = c at ends follows
  generalize start' : evalStart host { s with limits } state enclosed script = d at follows
  cases follows with
  | onward raised =>
    exact (congrArg (run host fuel) start').trans (run_follows raised (start ▸ silent) ends other)
  | hit stopped =>
    cases stopped with
    | mk direct => exact absurd rfl (other _ (answer_of_fault direct ends))

theorem eval_raised_failing :
    let host : Host Unit := { natives := fun _ _ => .done () }
    let s : Session :=
      { id := ⟨0, 1⟩, limits := { maxDepth := 12 },
        scopes := { globals := Table.insert {} "x" "0" } }
    let script := "for (i = 0; i < 2; i++) \x7b x = x + (i)\nif (i) x = missing \x7d"
    let fault : Fault := { cause := .undefinedVariable "missing", line := 2 }
    ∃ fin, s.eval host 500 () false script = some fin ∧ fin.answer = .error fault ∧
      { s with limits := { maxDepth := 1000 } }.eval host 500 () false script =
        some { fin with session := { fin.session with limits := { maxDepth := 1000 } } } := by
  intro host s script fault
  have ends : (s.eval host 500 () false script).bind (fun fin =>
      match fin.answer with
      | .ok _ => none
      | .error fault => some fault) = some fault := by
    decide +kernel
  have silent : s.evalCalls host 500 () false script = [] :=
    List.length_eq_zero_iff.mp (by decide +kernel)
  obtain ⟨fin, executed, failed⟩ := Option.bind_eq_some_iff.mp ends
  have answered : fin.answer = .error fault := by
    generalize fin.answer = answer at failed
    cases answer with
    | ok value => cases failed
    | error fault' => exact congrArg _ (Option.some.inj failed)
  have other : ∀ fault', fin.answer = .error fault' → fault'.cause ≠ .recursionLimit := by
    intro fault' h
    cases answered.symm.trans h
    simp [fault]
  exact ⟨fin, executed, answered, eval_raised host 500 s () false script { maxDepth := 1000 }
    (by decide) fin executed silent other⟩

end Session

end Scriptlet
