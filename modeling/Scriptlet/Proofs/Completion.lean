import Scriptlet.Proofs.Run

/-!
Completion of frames. A frame on top of the stack is followed until it leaves the stack or brings
the parse down, together with everything it has read in between. This is the machine in big steps:
a run that ends passes through the completion of its frames, and a completion can be run on any
stack.
-/

namespace Scriptlet

namespace Session

abbrev enter (s : Session) : Session := { s with depth := s.depth + 1 }

abbrev leave (s : Session) : Session := { s with depth := s.depth - 1 }

end Session

@[simp] theorem Fault.cause_orLine (f : Fault) (line : Nat) : (f.orLine line).cause = f.cause := by
  unfold orLine
  split <;> rfl

abbrev Frame.act (f : Frame) (inner : Option Phase) (s : Session) : Except Fault Move × Scene :=
  (f.step inner).on { session := s }

namespace Machine

variable {H : Type} {z : Ask} {host : Host H}

/-- A native program, run with nobody waiting, ends with an answer and leaves this behind. -/
def Ends (host : Host H) (p : Program H Unit) (s : Session) (state : H)
    (answer : Except Fault Unit) (s' : Session) (state' : H) : Prop :=
  ∃ n, run host n ⟨s, state, .program p .idle⟩ = some (⟨answer, s', state'⟩ : Finished H .unit)

/-- `Completes host name out state r s' state' cs`: a frame called `name` that has just done `out`
completes in `r`, leaves the session `s'` and the host state `state'`, and makes the calls `cs` on
the way. -/
inductive Completes (host : Host H) : String → Except Fault Move × Scene → H →
    Except Fault Phase → Session → H → List (Invocation H) → Prop where
  | fault {name scene state fault} :
      Completes host name (.error fault, scene) state (.error fault) scene.session
        (host.absorb scene.journal state) []
  | done {name scene state phase} :
      Completes host name (.ok (.done phase), scene) state (.ok phase) scene.session.leave
        (host.absorb (.done name phase :: scene.journal) state) []
  | stay {name scene state self r s' state' cs} :
      Completes host self.name (self.act none scene.session) (host.absorb scene.journal state)
        r s' state' cs →
      Completes host name (.ok (.stay self), scene) state r s' state' cs
  | limit {name scene state self inner} :
      scene.session.limits.maxDepth ≤ scene.session.depth →
      Completes host name (.ok (.push self inner), scene) state
        (.error { cause := .recursionLimit }) scene.session (host.absorb scene.journal state) []
  | pushFault {name scene state self inner fault s' state' cs} :
      scene.session.depth < scene.session.limits.maxDepth →
      Completes host inner.name (inner.act none scene.session.enter)
        (host.absorb (.push self.name inner.name (scene.session.depth + 1) :: scene.journal) state)
        (.error fault) s' state' cs →
      Completes host name (.ok (.push self inner), scene) state (.error fault) s' state' cs
  | push {name scene state self inner phase s₁ state₁ r s' state' cs ds} :
      scene.session.depth < scene.session.limits.maxDepth →
      Completes host inner.name (inner.act none scene.session.enter)
        (host.absorb (.push self.name inner.name (scene.session.depth + 1) :: scene.journal) state)
        (.ok phase) s₁ state₁ cs →
      Completes host self.name (self.act (some phase) s₁) state₁ r s' state' ds →
      Completes host name (.ok (.push self inner), scene) state r s' state' (cs ++ ds)
  | invokeFault {name scene state target args saved fault s₁ state₁} :
      Ends host (host.natives target.key args) scene.session (host.absorb scene.journal state)
        (.error fault) s₁ state₁ →
      Completes host name (.ok (.invoke target args saved), scene) state (.error fault)
        { s₁ with call := saved } state₁
        [⟨target.key, args, scene.session, host.absorb scene.journal state⟩]
  | invoke {name scene state target args saved s₁ state₁} :
      Ends host (host.natives target.key args) scene.session (host.absorb scene.journal state)
        (.ok ()) s₁ state₁ →
      Completes host name (.ok (.invoke target args saved), scene) state (.ok .exprDone)
        { s₁ with call := saved }.leave (host.absorb [.done "call" .exprDone] state₁)
        [⟨target.key, args, scene.session, host.absorb scene.journal state⟩]

/-- Induction along a completion that succeeds: the rules that end in a fault take no part. -/
@[elab_as_elim]
theorem Completes.ok_induction
    {motive : ∀ name out state phase s' state' cs,
      Completes host name out state (.ok phase) s' state' cs → Prop}
    (done : ∀ {name scene state phase}, motive name (.ok (.done phase), scene) state phase
      scene.session.leave (host.absorb (.done name phase :: scene.journal) state) [] .done)
    (stay : ∀ {name scene state self phase s' state' cs}
      (comp : Completes host self.name (self.act none scene.session)
        (host.absorb scene.journal state) (.ok phase) s' state' cs),
      motive _ _ _ _ _ _ _ comp →
      motive name (.ok (.stay self), scene) state phase s' state' cs (.stay comp))
    (push : ∀ {name scene state self inner inside s₁ state₁ phase s' state' cs ds}
      (room : scene.session.depth < scene.session.limits.maxDepth)
      (comp₁ : Completes host inner.name (inner.act none scene.session.enter)
        (host.absorb (.push self.name inner.name (scene.session.depth + 1) :: scene.journal) state)
        (.ok inside) s₁ state₁ cs)
      (comp₂ : Completes host self.name (self.act (some inside) s₁) state₁ (.ok phase) s' state'
        ds),
      motive _ _ _ _ _ _ _ comp₁ → motive _ _ _ _ _ _ _ comp₂ →
      motive name (.ok (.push self inner), scene) state phase s' state' (cs ++ ds)
        (.push room comp₁ comp₂))
    (invoke : ∀ {name scene state target args saved s₁ state₁}
      (ends : Ends host (host.natives target.key args) scene.session
        (host.absorb scene.journal state) (.ok ()) s₁ state₁),
      motive name (.ok (.invoke target args saved), scene) state .exprDone
        { s₁ with call := saved }.leave (host.absorb [.done "call" .exprDone] state₁)
        [⟨target.key, args, scene.session, host.absorb scene.journal state⟩] (.invoke ends))
    {name : String} {out : Except Fault Move × Scene} {state : H} {phase : Phase} {s' : Session}
    {state' : H} {cs : List (Invocation H)}
    (h : Completes host name out state (.ok phase) s' state' cs) :
    motive name out state phase s' state' cs h := by
  suffices any : ∀ {r} (h : Completes host name out state r s' state' cs) {phase}
      (hr : r = .ok phase), motive name out state phase s' state' cs (hr ▸ h) from any h rfl
  clear h
  intro r h phase hr
  induction h generalizing phase with
  | fault => cases hr
  | limit => cases hr
  | pushFault => cases hr
  | invokeFault => cases hr
  | done =>
    cases hr
    exact done
  | stay comp ih =>
    cases hr
    exact stay comp (ih rfl)
  | push room comp₁ comp₂ ih₁ ih₂ =>
    cases hr
    exact push room comp₁ comp₂ (ih₁ rfl) (ih₂ rfl)
  | invoke ends =>
    cases hr
    exact invoke ends

theorem completes_done {name : String} {f : Frame} {inner : Option Phase} {s : Session}
    {phase : Phase} {scene : Scene} (h : f.act inner s = (.ok (.done phase), scene)) (state : H) :
    ∃ state', Completes host name (f.act inner s) state (.ok phase) scene.session.leave state' [] := by
  rw [h]
  exact ⟨_, .done⟩

def completed (base : Nat) (below : List Frame) (outer : Waiting H z .phase)
    (r : Except Fault Phase) (s : Session) (state : H) : Config H z :=
  match r, below with
  | .ok phase, next :: rest => ⟨s, state, .drive base next rest (some phase) outer⟩
  | .ok phase, [] => ⟨{ s with depth := base }, state, .deliver .phase (.ok phase) outer⟩
  | .error fault, _ =>
    ⟨{ s with depth := base }, state, .deliver .phase (.error (fault.orLine s.line)) outer⟩

theorem completed_scopes (base : Nat) (below : List Frame) (outer : Waiting H z .phase)
    (r : Except Fault Phase) (s : Session) (state : H) :
    (completed base below outer r s state).session.scopes = s.scopes := by
  cases r with
  | error fault => rfl
  | ok phase => cases below <;> rfl

/-! ### One step of a frame -/

section Step

variable {s : Session} {state : H} {base : Nat} {top : Frame} {below : List Frame}
  {inner : Option Phase} {outer : Waiting H z .phase} {scene : Scene}

theorem step_fault {fault : Fault} (h : top.act inner s = (.error fault, scene)) :
    step host ⟨s, state, .drive base top below inner outer⟩ =
      .inr (completed base below outer (.error fault) scene.session
        (host.absorb scene.journal state)) := by
  have act : (top.step inner).run.run { session := s } = (.error fault, scene) := h
  simp only [step_drive, driveStep, act]
  rfl

theorem step_done {phase : Phase} (h : top.act inner s = (.ok (.done phase), scene)) :
    step host ⟨s, state, .drive base top below inner outer⟩ =
      .inr (completed base below outer (.ok phase) scene.session.leave
        (host.absorb (.done top.name phase :: scene.journal) state)) := by
  have act : (top.step inner).run.run { session := s } = (.ok (.done phase), scene) := h
  simp only [step_drive, driveStep, act]
  cases below <;> rfl

theorem step_stay {self : Frame} (h : top.act inner s = (.ok (.stay self), scene)) :
    step host ⟨s, state, .drive base top below inner outer⟩ =
      .inr ⟨scene.session, host.absorb scene.journal state,
        .drive base self below none outer⟩ := by
  have act : (top.step inner).run.run { session := s } = (.ok (.stay self), scene) := h
  simp only [step_drive, driveStep, act]
  rfl

theorem step_limit {self child : Frame} (h : top.act inner s = (.ok (.push self child), scene))
    (full : scene.session.limits.maxDepth ≤ scene.session.depth) :
    step host ⟨s, state, .drive base top below inner outer⟩ =
      .inr (completed base below outer (.error { cause := .recursionLimit }) scene.session
        (host.absorb scene.journal state)) := by
  have act : (top.step inner).run.run { session := s } = (.ok (.push self child), scene) := h
  simp only [step_drive, driveStep, act, pushFrame, if_pos full]
  rfl

theorem step_push {self child : Frame} (h : top.act inner s = (.ok (.push self child), scene))
    (room : scene.session.depth < scene.session.limits.maxDepth) :
    step host ⟨s, state, .drive base top below inner outer⟩ =
      .inr ⟨scene.session.enter,
        host.absorb (.push self.name child.name (scene.session.depth + 1) :: scene.journal) state,
        .drive base child (self :: below) none outer⟩ := by
  have act : (top.step inner).run.run { session := s } = (.ok (.push self child), scene) := h
  simp only [step_drive, driveStep, act, pushFrame, if_neg (Nat.not_le.mpr room)]
  rfl

theorem step_invoke {target : Callable} {args : List String} {saved : Option Call}
    (h : top.act inner s = (.ok (.invoke target args saved), scene)) :
    step host ⟨s, state, .drive base top below inner outer⟩ =
      .inr ⟨scene.session, host.absorb scene.journal state,
        .program (host.natives target.key args) (.call base saved below outer)⟩ := by
  have act : (top.step inner).run.run { session := s } = (.ok (.invoke target args saved), scene) :=
    h
  simp only [step_drive, driveStep, act]
  rfl

theorem call?_invoke {target : Callable} {args : List String} {saved : Option Call}
    (direct : outer.inNative = false)
    (h : top.act inner s = (.ok (.invoke target args saved), scene)) :
    Config.call? host ⟨s, state, .drive base top below inner outer⟩ =
      some ⟨target.key, args, scene.session, host.absorb scene.journal state⟩ := by
  simp [Config.call?, direct, h]

/-- Whatever else a frame does, it makes no call. -/
theorem call?_other {r : Except Fault Move} (h : top.act inner s = (r, scene))
    (other : ∀ target args saved, r ≠ .ok (.invoke target args saved)) :
    Config.call? host ⟨s, state, .drive base top below inner outer⟩ = none := by
  simp only [Config.call?, h]
  split
  · rfl
  · split
    · rename_i target args saved scene' heq
      exact absurd (Prod.mk.inj heq).1 (other target args saved)
    · rfl

end Step

/-! ### Completions are runs -/

theorem step_return_ok (s : Session) (state : H) (base : Nat) (saved : Option Call)
    (below : List Frame) (outer : Waiting H z .phase) :
    step host ⟨s, state, .deliver .unit (.ok ()) (.call base saved below outer)⟩ =
      .inr (completed base below outer (.ok .exprDone) { s with call := saved }.leave
        (host.absorb [.done "call" .exprDone] state)) := by
  cases below <;> rfl

theorem step_return_fault (s : Session) (state : H) (base : Nat) (saved : Option Call)
    (below : List Frame) (outer : Waiting H z .phase) (fault : Fault) :
    step host ⟨s, state, .deliver .unit (.error fault) (.call base saved below outer)⟩ =
      .inr (completed base below outer (.error fault) { s with call := saved } state) := rfl

/-- A frame that invokes a native function waits until that has ended. -/
theorem reaches_native {s s₁ : Session} {state state₁ : H} {base : Nat} {top : Frame}
    {below : List Frame} {inner : Option Phase} {outer : Waiting H z .phase} {scene : Scene}
    {target : Callable} {args : List String} {saved : Option Call} {answer : Except Fault Unit}
    (direct : outer.inNative = false)
    (hact : top.act inner s = (.ok (.invoke target args saved), scene))
    (ends : Ends host (host.natives target.key args) scene.session
      (host.absorb scene.journal state) answer s₁ state₁) :
    Reaches host ⟨s, state, .drive base top below inner outer⟩
      [⟨target.key, args, scene.session, host.absorb scene.journal state⟩]
      ⟨s₁, state₁, .deliver .unit answer (.call base saved below outer)⟩ := by
  obtain ⟨n, hn⟩ := ends
  have first := Reaches.head (step_invoke hact) (reaches_plug (.call base saved below outer) hn)
  rw [call?_invoke direct hact] at first
  exact first

theorem Completes.reaches {name : String} {out : Except Fault Move × Scene} {state : H}
    {r : Except Fault Phase} {s' : Session} {state' : H} {cs : List (Invocation H)}
    (h : Completes host name out state r s' state' cs) {top : Frame} {inner : Option Phase}
    {s : Session} (hname : top.name = name) (hact : top.act inner s = out) (base : Nat)
    (below : List Frame) (outer : Waiting H z .phase) (direct : outer.inNative = false) :
    Reaches host ⟨s, state, .drive base top below inner outer⟩ cs
      (completed base below outer r s' state') := by
  induction h generalizing top inner s below with
  | fault => exact .quiet (step_fault hact) (call?_other hact (by simp)) (.refl _)
  | done =>
    subst hname
    exact .quiet (step_done hact) (call?_other hact (by simp)) (.refl _)
  | stay _ ih =>
    exact .quiet (step_stay hact) (call?_other hact (by simp)) (ih rfl rfl below)
  | limit full => exact .quiet (step_limit hact full) (call?_other hact (by simp)) (.refl _)
  | pushFault room _ ih =>
    exact .quiet (step_push hact room) (call?_other hact (by simp)) (ih rfl rfl (_ :: below))
  | push room _ _ ih₁ ih₂ =>
    exact .quiet (step_push hact room) (call?_other hact (by simp))
      ((ih₁ rfl rfl (_ :: below)).trans (ih₂ rfl rfl below))
  | invokeFault ends =>
    exact (reaches_native direct hact ends).trans
      (.quiet (step_return_fault _ _ _ _ _ _ _) rfl (.refl _))
  | invoke ends =>
    exact (reaches_native direct hact ends).trans
      (.quiet (step_return_ok _ _ _ _ _ _) rfl (.refl _))

/-! ### Runs are completions -/

theorem run_step {n : Nat} {c next : Config H z} {fin : Finished H z}
    (st : step host c = .inr next) (h : run host (n + 1) c = some fin) :
    run host n next = some fin := by
  simpa [run, st] using h

theorem calls_step {n : Nat} {c next : Config H z} (st : step host c = .inr next)
    (none : c.call? host = none) : calls host (n + 1) c = calls host n next := by
  simp [calls, st, none]

/-- A run that starts with a call, and ends, comes past the end of the native program. -/
theorem completes_of_run_invoke {n : Nat} {s : Session} {state : H} {base : Nat} {top : Frame}
    {below : List Frame} {inner : Option Phase} {outer : Waiting H z .phase} {scene : Scene}
    {target : Callable} {args : List String} {saved : Option Call} {fin : Finished H z}
    (direct : outer.inNative = false)
    (hact : top.act inner s = (.ok (.invoke target args saved), scene))
    (h : run host (n + 1) ⟨s, state, .drive base top below inner outer⟩ = some fin) :
    ∃ r s' state' cs m, Completes host top.name (top.act inner s) state r s' state' cs ∧
      m < n + 1 ∧ run host m (completed base below outer r s' state') = some fin ∧
      calls host (n + 1) ⟨s, state, .drive base top below inner outer⟩ =
        cs ++ calls host m (completed base below outer r s' state') := by
  have st : step host ⟨s, state, .drive base top below inner outer⟩ = _ := step_invoke hact
  have native : run host n (Config.plug ⟨scene.session, host.absorb scene.journal state,
    .program (host.natives target.key args) .idle⟩ (.call base saved below outer)) =
      some fin := run_step st h
  obtain ⟨n₁, ⟨answer, s₁, state₁⟩, m, ends, hm, rest, hcs⟩ := run_plug _ native
  obtain ⟨m, rfl⟩ := exists_succ_of_run rest
  have head : calls host (n + 1) ⟨s, state, .drive base top below inner outer⟩ =
      [⟨target.key, args, scene.session, host.absorb scene.journal state⟩] ++
        calls host (m + 1) ⟨s₁, state₁, .deliver .unit answer (.call base saved below outer)⟩ := by
    simp only [calls, st, call?_invoke direct hact, Option.toList_some]
    exact congrArg (_ :: ·) hcs
  rw [hact]
  cases answer with
  | error fault =>
    have back : step host _ = _ := step_return_fault s₁ state₁ base saved below outer fault
    exact ⟨_, _, _, _, m, .invokeFault ⟨n₁, ends⟩, by omega, run_step back rest,
      head.trans (congrArg (_ ++ ·) (calls_step back rfl))⟩
  | ok u =>
    have back : step host _ = _ := step_return_ok s₁ state₁ base saved below outer
    exact ⟨_, _, _, _, m, .invoke ⟨n₁, ends⟩, by omega, run_step back rest,
      head.trans (congrArg (_ ++ ·) (calls_step back rfl))⟩

/-- A run that ends comes past the completion of the frame it starts with. -/
theorem completes_of_run {n : Nat} : ∀ {s : Session} {state : H} {base : Nat} {top : Frame}
    {below : List Frame} {inner : Option Phase} {outer : Waiting H z .phase} {fin : Finished H z},
    outer.inNative = false →
    run host n ⟨s, state, .drive base top below inner outer⟩ = some fin →
    ∃ r s' state' cs m, Completes host top.name (top.act inner s) state r s' state' cs ∧ m < n ∧
      run host m (completed base below outer r s' state') = some fin ∧
      calls host n ⟨s, state, .drive base top below inner outer⟩ =
        cs ++ calls host m (completed base below outer r s' state') := by
  -- On the number of steps: a frame that is pushed completes in fewer, and what it leaves behind
  -- in fewer still.
  induction n using Nat.strongRecOn with
  | ind n ih =>
    intro s state base top below inner outer fin direct h
    obtain ⟨n, rfl⟩ := exists_succ_of_run h
    rcases hact : top.act inner s with ⟨fault | move, scene⟩
    · have st : step host ⟨s, state, .drive base top below inner outer⟩ = _ := step_fault hact
      exact ⟨_, _, _, _, n, .fault, Nat.lt_succ_self n, run_step st h,
        calls_step st (call?_other hact (by simp))⟩
    · cases move with
      | done phase =>
        have st : step host ⟨s, state, .drive base top below inner outer⟩ = _ := step_done hact
        exact ⟨_, _, _, _, n, .done, Nat.lt_succ_self n, run_step st h,
          calls_step st (call?_other hact (by simp))⟩
      | stay self =>
        have st : step host ⟨s, state, .drive base top below inner outer⟩ = _ := step_stay hact
        obtain ⟨r, s', state', cs, m, comp, hm, rest, hcs⟩ :=
          ih n (Nat.lt_succ_self n) direct (run_step st h)
        refine ⟨r, s', state', cs, m, .stay comp, by omega, rest, ?_⟩
        rw [calls_step st (call?_other hact (by simp)), hcs]
      | push self child =>
        by_cases room : scene.session.depth < scene.session.limits.maxDepth
        · have st : step host ⟨s, state, .drive base top below inner outer⟩ = _ :=
            step_push hact room
          obtain ⟨r, s₁, state₁, cs, m, comp, hm, rest, hcs⟩ :=
            ih n (Nat.lt_succ_self n) direct (run_step st h)
          have head := calls_step (n := n) st (call?_other hact (by simp))
          cases r with
          | error fault =>
            exact ⟨_, _, _, cs, m, .pushFault room comp, by omega, rest, head.trans hcs⟩
          | ok phase =>
            obtain ⟨r, s', state', ds, k, comp', hk, rest', hds⟩ := ih m (by omega) direct rest
            refine ⟨r, s', state', cs ++ ds, k, .push room comp comp', by omega, rest', ?_⟩
            rw [head, hcs, List.append_assoc]
            exact congrArg (cs ++ ·) hds
        · have full := Nat.not_lt.mp room
          have st : step host ⟨s, state, .drive base top below inner outer⟩ = _ :=
            step_limit hact full
          exact ⟨_, _, _, _, n, .limit full, Nat.lt_succ_self n, run_step st h,
            calls_step st (call?_other hact (by simp))⟩
      | invoke target args saved =>
        exact hact ▸ completes_of_run_invoke direct hact h

end Machine

namespace Session

open Machine

variable {H : Type} {host : Host H}

def evalStart (host : Host H) (s : Session) (state : H) (enclosed : Bool) (script : String) :
    Config H .text :=
  let (session, events, control) := startEval s enclosed script .idle
  ⟨session, host.absorb events state, control⟩

def parseCalls (host : Host H) (fuel : Nat) (s : Session) (state : H) (start : Phase)
    (flags : Flags) : List (Invocation H) :=
  let (session, control) : Session × Control H .phase := beginParse s start flags .idle
  calls host fuel ⟨session, state, control⟩

def evalCalls (host : Host H) (fuel : Nat) (s : Session) (state : H) (enclosed : Bool)
    (script : String) : List (Invocation H) :=
  let (session, events, control) : Session × List Event × Control H .text :=
    startEval s enclosed script .idle
  calls host fuel ⟨session, host.absorb events state, control⟩

def parsed (base : Nat) (r : Except Fault Phase) (s : Session) (state : H) :
    Finished H .phase :=
  ⟨r.mapError (·.orLine s.line), { s with depth := base }, state⟩

theorem calls_deliver_idle {z : Ask} (n : Nat) (s : Session) (state : H)
    (answer : Except Fault z.Answer) :
    calls host n ⟨s, state, .deliver z answer .idle⟩ = [] := by
  cases n <;> rfl

theorem completed_nil {z : Ask} (base : Nat) (outer : Waiting H z .phase) (r : Except Fault Phase)
    (s : Session) (state : H) :
    completed base [] outer r s state =
      ⟨{ s with depth := base }, state, .deliver .phase (r.mapError (·.orLine s.line)) outer⟩ := by
  cases r <;> rfl

/-- A parse that begins drives the frame of its phase. -/
theorem beginParse_start {z : Ask} {s : Session} {start : Phase} {flags : Flags} {frame : Frame}
    (room : s.depth < s.limits.maxDepth) (hstart : Frame.start flags start = .ok frame)
    (outer : Waiting H z .phase) :
    beginParse s start flags outer = (s.enter, .drive s.depth frame [] none outer) := by
  simp [beginParse, Nat.not_le.mpr room, hstart]

theorem begins_or_refused (s : Session) (start : Phase) (flags : Flags) :
    (s.depth < s.limits.maxDepth ∧ ∃ frame, Frame.start flags start = .ok frame) ∨
      (s.limits.maxDepth ≤ s.depth ∨ ∃ cause, Frame.start flags start = .error cause) := by
  by_cases room : s.depth < s.limits.maxDepth
  · cases h : Frame.start flags start with
    | ok frame => exact .inl ⟨room, frame, rfl⟩
    | error cause => exact .inr (.inr ⟨cause, rfl⟩)
  · exact .inr (.inl (Nat.not_lt.mp room))

theorem start_error {start : Phase} {flags : Flags} {cause : Fault.Cause}
    (h : Frame.start flags start = .error cause) : cause = .cannotStart start := by
  cases start <;> simp_all [Frame.start]

/-- A parse that cannot begin fails at once and leaves the session as it was. -/
theorem beginParse_refused {z : Ask} {s : Session} {start : Phase} {flags : Flags}
    (refused : s.limits.maxDepth ≤ s.depth ∨ ∃ cause, Frame.start flags start = .error cause) :
    ∃ fault : Fault, (fault.cause = .recursionLimit ∨ fault.cause = .cannotStart start) ∧
      ∀ outer : Waiting H z .phase,
        beginParse s start flags outer = (s, .deliver .phase (.error fault) outer) := by
  by_cases full : s.limits.maxDepth ≤ s.depth
  · refine ⟨Fault.orLine { cause := .recursionLimit } s.line, .inl rfl, fun outer => ?_⟩
    simp only [beginParse, if_pos full]
    rfl
  · obtain ⟨cause, hcause⟩ := refused.resolve_left full
    refine ⟨Fault.orLine { cause } s.line, .inr (start_error hcause), fun outer => ?_⟩
    simp only [beginParse, if_neg full, hcause]
    rfl

/-- A completion of the first frame is a parse, given steps enough. -/
theorem parse_of_completes {s s' : Session} {state state' : H} {start : Phase} {flags : Flags}
    {frame : Frame} {r : Except Fault Phase} {cs : List (Invocation H)}
    (room : s.depth < s.limits.maxDepth) (hstart : Frame.start flags start = .ok frame)
    (comp : Completes host frame.name (frame.act none s.enter) state r s' state' cs) :
    ∃ n, ∀ fuel, n ≤ fuel → s.parse host fuel state start flags = some (parsed s.depth r s' state') ∧
      s.parseCalls host fuel state start flags = cs := by
  obtain ⟨n, hn⟩ := (comp.reaches rfl rfl s.depth [] (.idle : Waiting H .phase .phase) rfl).run_eq
  refine ⟨n + 1, fun fuel le => ?_⟩
  obtain ⟨m, rfl⟩ : ∃ m, fuel = n + (m + 1) := ⟨fuel - n - 1, by omega⟩
  simp only [parse, parseCalls, beginParse_start room hstart, hn, completed_nil,
    calls_deliver_idle, List.append_nil, and_true]
  rfl

/-- A parse that ends completes its first frame. -/
theorem completes_of_parse {s : Session} {state : H} {start : Phase} {flags : Flags} {fuel : Nat}
    {frame : Frame} {fin : Finished H .phase} (room : s.depth < s.limits.maxDepth)
    (hstart : Frame.start flags start = .ok frame)
    (h : s.parse host fuel state start flags = some fin) :
    ∃ r s' state', fin = parsed s.depth r s' state' ∧
      Completes host frame.name (frame.act none s.enter) state r s' state'
        (s.parseCalls host fuel state start flags) := by
  simp only [parse, parseCalls, beginParse_start room hstart] at h ⊢
  obtain ⟨r, s', state', cs, m, comp, _, rest, hcs⟩ := completes_of_run rfl h
  rw [completed_nil] at rest hcs
  rw [calls_deliver_idle, List.append_nil] at hcs
  obtain ⟨m, rfl⟩ := exists_succ_of_run rest
  exact ⟨r, s', state', (Option.some.inj rest).symm, hcs ▸ comp⟩

/-- A parse that succeeds had room to begin. -/
theorem completes_of_parse_ok {s s' : Session} {state state' : H} {start phase : Phase}
    {flags : Flags} {fuel : Nat} {frame : Frame} (hstart : Frame.start flags start = .ok frame)
    (h : s.parse host fuel state start flags = some ⟨.ok phase, s', state'⟩) :
    s.depth < s.limits.maxDepth ∧ ∃ s₁, s' = { s₁ with depth := s.depth } ∧
      Completes host frame.name (frame.act none s.enter) state (.ok phase) s₁ state'
        (s.parseCalls host fuel state start flags) := by
  rcases begins_or_refused s start flags with ⟨room, _⟩ | refused
  · obtain ⟨r, s₁, state₁, hfin, comp⟩ := completes_of_parse room hstart h
    cases r with
    | error fault => cases hfin
    | ok phase' =>
      cases hfin
      exact ⟨room, s₁, rfl, comp⟩
  · obtain ⟨fault, _, hbegin⟩ := beginParse_refused (z := .phase) (H := H) refused
    simp only [parse, hbegin] at h
    cases fuel with
    | zero => cases h
    | succ n => cases h

/-- Where the limit is reached no parse begins. -/
theorem parse_full {s : Session} (full : s.limits.maxDepth ≤ s.depth) (fuel : Nat) (state : H)
    (start : Phase) (flags : Flags) :
    s.parse host (fuel + 1) state start flags =
      some ⟨.error (Fault.orLine { cause := .recursionLimit } s.line), s, state⟩ := by
  simp only [parse, beginParse, if_pos full]
  rfl

end Session

end Scriptlet
