import Scriptlet.Proofs.Calling
import Scriptlet.Proofs.Ceiling

/-!
The record that a native function sees. Wherever in a run a native function is called, also by a
script that another one evaluates, the run has come past the name and the parenthesis of this very
call, has found the function there, and has parsed the arguments of the call one after the other;
the record of the session holds that name and those values, which are what the function is passed.
-/

namespace Scriptlet

namespace Machine

variable {H : Type} {y z a : Ask} {host : Host H}

/-! ### Counted steps -/

def advance (host : Host H) : Nat → Config H z → Option (Config H z)
  | 0, c => some c
  | n + 1, c =>
    match step host c with
    | .inl _ => none
    | .inr next => advance host n next

theorem advance_step {n : Nat} {c next : Config H z} (st : step host c = .inr next) :
    advance host (n + 1) c = advance host n next := by
  simp only [advance, st]

theorem Reaches.advance {c d : Config H z} {cs : List (Invocation H)} (h : Reaches host c cs d) :
    ∃ n, Machine.advance host n c = some d := by
  induction h with
  | refl => exact ⟨0, rfl⟩
  | head st _ ih =>
    obtain ⟨n, hn⟩ := ih
    exact ⟨n + 1, (advance_step st).trans hn⟩

theorem reaches_of_advance {n : Nat} {c d : Config H z} (h : advance host n c = some d) :
    ∃ cs, Reaches host c cs d := by
  induction n generalizing c with
  | zero =>
    obtain rfl := Option.some.inj h
    exact ⟨[], .refl c⟩
  | succ n ih =>
    cases st : step host c with
    | inl fin => simp [advance, st] at h
    | inr next =>
      obtain ⟨cs, rest⟩ := ih ((advance_step st).symm.trans h)
      exact ⟨_, .head st rest⟩

theorem Reaches.plug {c d : Config H y} {cs : List (Invocation H)} (h : Reaches host c cs d)
    (k : Waiting H z y) : ∃ ds, Reaches host (c.plug k) ds (d.plug k) := by
  induction h with
  | refl c => exact ⟨[], .refl _⟩
  | head st _ ih =>
    obtain ⟨ds, rest⟩ := ih
    exact ⟨_, .head (step_plug k st) rest⟩

/-- A run under something that waits is still busy with what it runs on its own, or that has ended
and been handed on. -/
theorem advance_of_plug {n : Nat} {c : Config H y} {d : Config H z} (k : Waiting H z y)
    (h : advance host n (c.plug k) = some d) :
    (∃ d', advance host n c = some d' ∧ d = d'.plug k) ∨
      ∃ m fin j, run host m c = some fin ∧ j ≤ n ∧
        advance host j ⟨fin.session, fin.state, .deliver y fin.answer k⟩ = some d := by
  induction n generalizing c with
  | zero => exact .inl ⟨c, rfl, (Option.some.inj h).symm⟩
  | succ n ih =>
    cases st : step host c with
    | inl fin =>
      rw [plug_of_finished k st] at h
      exact .inr ⟨1, fin, n + 1, by simp [run, st], Nat.le_refl _, h⟩
    | inr next =>
      rcases ih ((advance_step (step_plug k st)).symm.trans h) with
        ⟨d', within, rfl⟩ | ⟨m, fin, j, ended, le, behind⟩
      · exact .inl ⟨d', (advance_step st).trans within, rfl⟩
      · exact .inr ⟨m + 1, fin, j, by simpa [run, st] using ended, by omega, behind⟩

/-! ### Calls wherever they are made -/

/-- The native call that the next step makes, by whatever script. -/
def Config.invokes? (host : Host H) (c : Config H z) : Option (Invocation H) :=
  match c.control with
  | .drive _ top _ inner _ =>
    match top.act inner c.session with
    | (.ok (.invoke target args _), scene) =>
      some ⟨target.key, args, scene.session, host.absorb scene.journal c.state⟩
    | _ => none
  | _ => none

theorem invokes?_plug (c : Config H y) (k : Waiting H z y) :
    (c.plug k).invokes? host = c.invokes? host := by
  obtain ⟨s, state, control⟩ := c
  cases control <;> rfl

/-- How `call`, which is made in the step from `d`, has come about in a run from `c`. -/
inductive Recorded (host : Host H) (c d : Config H z) (call : Invocation H) : Prop where
  | intro {flags : Flags} {name : String} {target : Callable} {s s₁ : Session} {state state₁ : H}
      {base : Nat} {below : List Frame} {outer : Waiting H z .phase} {t : Token} {i : Input}
      {events : List Event} {phase : Phase} {cs ds : List (Invocation H)}
      (begun : Reaches host c cs
        ⟨s, state, .drive base ⟨flags, .call name .opening⟩ below none outer⟩)
      (executes : flags.executes = true)
      (named : s.token = ⟨.function, name⟩)
      (read : s.input.next .expr = (t, i))
      (opens : t.kind = .lparen)
      (registered : s.functions.get? name = some target)
      (gathered : Gathers host flags
        { s with input := i, token := t, call := some { name } }.enter (host.absorb events state)
        call.args s₁ state₁)
      (reached : Reaches host
        ⟨s, state, .drive base ⟨flags, .call name .opening⟩ below none outer⟩ ds d)
      (complete : d = ⟨s₁.leave, state₁, .drive base
        ⟨flags, .call name (.invoking (some (target, s.call)))⟩ below (some phase) outer⟩)
      (key : call.key = target.key)
      (handed : call.session = { s₁.leave with result := "" })
      (record : call.session.call = some ⟨name, call.args⟩)

namespace Recorded

variable {c d e : Config H z} {call : Invocation H}

theorem after {cs : List (Invocation H)} (before : Reaches host c cs d)
    (h : Recorded host d e call) : Recorded host c e call := by
  obtain ⟨begun, executes, named, read, opens, registered, gathered, reached, complete, key, handed,
    record⟩ := h
  exact ⟨before.trans begun, executes, named, read, opens, registered, gathered, reached, complete,
    key, handed, record⟩

theorem plug {c d : Config H y} (h : Recorded host c d call) (k : Waiting H z y) :
    Recorded host (c.plug k) (d.plug k) call := by
  obtain ⟨begun, executes, named, read, opens, registered, gathered, reached, rfl, key, handed,
    record⟩ := h
  obtain ⟨cs, begun⟩ := begun.plug k
  obtain ⟨ds, reached⟩ := reached.plug k
  exact ⟨begun, executes, named, read, opens, registered, gathered, reached, rfl, key, handed,
    record⟩

end Recorded

/-! ### What a frame comes to -/

section Drive

open Scriptlet.Frame

variable {s : Session} {state : H} {base : Nat} {top : Frame} {below : List Frame}
  {inner : Option Phase} {outer : Waiting H z .phase} {c : Config H z} {call : Invocation H}

/-- Only a call behind its argument list calls. -/
theorem invokes?_eq_some (unnamed : top.Unnamed)
    (h : Config.invokes? host ⟨s, state, .drive base top below inner outer⟩ = some call) :
    ∃ flags name target saved, top = ⟨flags, .call name (.invoking (some (target, saved)))⟩ ∧
      call.key = target.key ∧ call.args = (s.call.map (·.args)).getD [] ∧
      call.session = { s with result := "" } := by
  simp only [Config.invokes?] at h
  split at h
  · rename_i hact
    cases h
    cases act_course hact unnamed with
    | aloof _ _ goesOn => exact absurd goesOn id
    | invokes => exact ⟨_, _, _, _, rfl, rfl, rfl, rfl⟩
  · cases h

def OwnRecorded (host : Host H) (c here : Config H z) : Prop :=
  ∀ call, here.invokes? host = some call → Recorded host c here call

theorem ownRecorded_of_other (unnamed : top.Unnamed)
    (other : ∀ name target, top.construct ≠ .call name (.invoking (some target))) :
    OwnRecorded host c ⟨s, state, .drive base top below inner outer⟩ := by
  intro call h
  obtain ⟨flags, name, target, saved, rfl, -⟩ := invokes?_eq_some unnamed h
  exact absurd rfl (other name (target, saved))

/-- A frame behind the one that it waited for: the call of an argument list that is complete has
come about. -/
theorem Completes.ownRecorded {self child : Frame} {scene : Scene} {phase : Phase} {s₁ : Session}
    {state₁ : H} {before within cs : List (Invocation H)}
    (begun : Reaches host c before ⟨s, state, .drive base top below inner outer⟩)
    (introduced : top.Introduced inner s) (hact : top.act inner s = (.ok (.push self child), scene))
    (comp : Completes host child.name (child.act none scene.session.enter)
      (host.absorb (.push self.name child.name (scene.session.depth + 1) :: scene.journal) state)
      (.ok phase) s₁ state₁ cs)
    (reached : Reaches host ⟨s, state, .drive base top below inner outer⟩ within
      ⟨s₁, state₁, .drive base self below (some phase) outer⟩) :
    OwnRecorded host c ⟨s₁, state₁, .drive base self below (some phase) outer⟩ := by
  cases act_course hact introduced.unnamed with
  | aloof _ _ goesOn =>
    exact ownRecorded_of_other goesOn.2.1 (not_invoking (balanced_of_aloof goesOn.1))
  | skips => exact ownRecorded_of_other (unnamed_of_unseeded rfl) (by nofun)
  | first => exact ownRecorded_of_other (unnamed_of_unseeded rfl) (by nofun)
  | another => exact ownRecorded_of_other (unnamed_of_unseeded rfl) (by nofun)
  | @opens flags name _ _ t i target executes read opens registered =>
    intro call h
    obtain ⟨rfl, named⟩ := introduced
    obtain ⟨values, s₂, gathered, rfl, record⟩ :=
      (comp.leaves rfl (unnamed_of_unseeded rfl)).gathered executes
    obtain ⟨_, _, _, _, same, key, args, handed⟩ := invokes?_eq_some (unnamed_of_unseeded rfl) h
    cases same
    have record : s₂.leave.call = some ⟨name, values⟩ := record
    obtain rfl : values = call.args := by rw [args, record]; rfl
    exact ⟨begun, executes, named, read, opens, registered, gathered, reached, rfl, key, handed,
      by rw [handed]; exact record⟩

/-- A run from a frame on the stack has come past the completion of this frame, with fewer than `n`
steps to go to `d`. -/
def Outlived (host : Host H) (n : Nat) (d : Config H z) (s : Session) (state : H) (base : Nat)
    (top : Frame) (below : List Frame) (inner : Option Phase) (outer : Waiting H z .phase) : Prop :=
  ∃ r s' state' cs ds m, Completes host top.name (top.act inner s) state r s' state' cs ∧ m < n ∧
    Reaches host ⟨s, state, .drive base top below inner outer⟩ ds
      (completed base below outer r s' state') ∧
    advance host m (completed base below outer r s' state') = some d

def NativesRecorded (host : Host H) (n : Nat) : Prop :=
  ∀ m, m < n → ∀ (p : Program H Unit) (s : Session) (state : H) (d : Config H .unit) call,
    advance host m ⟨s, state, .program p .idle⟩ = some d → d.invokes? host = some call →
    Recorded host ⟨s, state, .program p .idle⟩ d call

theorem NativesRecorded.mono {n m : Nat} (h : NativesRecorded host n) (le : m ≤ n) :
    NativesRecorded host m :=
  fun k lt => h k (Nat.lt_of_lt_of_le lt le)

theorem outlived_of_step {n : Nat} {d : Config H z} {r : Except Fault Phase} {s' : Session}
    {state' : H} {cs : List (Invocation H)}
    (st : step host ⟨s, state, .drive base top below inner outer⟩ =
      .inr (completed base below outer r s' state'))
    (comp : Completes host top.name (top.act inner s) state r s' state' cs)
    (reached : advance host (n + 1) ⟨s, state, .drive base top below inner outer⟩ = some d) :
    Outlived host (n + 1) d s state base top below inner outer :=
  ⟨r, s', state', cs, _, n, comp, Nat.lt_succ_self n, .head st (.refl _),
    (advance_step st).symm.trans reached⟩

theorem Outlived.of_stay {n : Nat} {d : Config H z} {self : Frame} {scene : Scene}
    (h : Outlived host n d scene.session (host.absorb scene.journal state) base self below none
      outer) (hact : top.act inner s = (.ok (.stay self), scene)) :
    Outlived host (n + 1) d s state base top below inner outer := by
  obtain ⟨r, s', state', cs, ds, m, comp, lt, leads, rest⟩ := h
  exact ⟨r, s', state', cs, _, m, by rw [hact]; exact .stay comp, by omega,
    .head (step_stay hact) leads, rest⟩

theorem Outlived.of_push {n m : Nat} {d : Config H z} {self child : Frame} {scene : Scene}
    {phase : Phase} {s₁ : Session} {state₁ : H} {cs ds : List (Invocation H)}
    (h : Outlived host m d s₁ state₁ base self below (some phase) outer) (le : m ≤ n)
    (hact : top.act inner s = (.ok (.push self child), scene))
    (room : scene.session.depth < scene.session.limits.maxDepth)
    (comp : Completes host child.name (child.act none scene.session.enter)
      (host.absorb (.push self.name child.name (scene.session.depth + 1) :: scene.journal) state)
      (.ok phase) s₁ state₁ cs)
    (passed : Reaches host ⟨s, state, .drive base top below inner outer⟩ ds
      ⟨s₁, state₁, .drive base self below (some phase) outer⟩) :
    Outlived host n d s state base top below inner outer := by
  obtain ⟨r, s', state', cs', ds', k, comp', lt, leads, rest⟩ := h
  exact ⟨r, s', state', _, _, k, by rw [hact]; exact .push room comp comp', by omega,
    passed.trans leads, rest⟩

/-- While a native function runs, the calls below it are those of its own program. -/
theorem native_recorded {n : Nat} {d : Config H z} {before : List (Invocation H)}
    {target : Callable} {args : List String} {saved : Option Call} {scene : Scene}
    (natives : NativesRecorded host (n + 1))
    (begun : Reaches host c before ⟨s, state, .drive base top below inner outer⟩)
    (hact : top.act inner s = (.ok (.invoke target args saved), scene))
    (reached : advance host (n + 1) ⟨s, state, .drive base top below inner outer⟩ = some d)
    (invokes : d.invokes? host = some call) :
    Recorded host c d call ∨ Outlived host (n + 1) d s state base top below inner outer := by
  have st : step host ⟨s, state, .drive base top below inner outer⟩ = _ := step_invoke hact
  have first := Reaches.head st (.refl _)
  have native : advance host n (Config.plug ⟨scene.session, host.absorb scene.journal state,
    .program (host.natives target.key args) .idle⟩ (.call base saved below outer)) = some d :=
    (advance_step st).symm.trans reached
  rcases advance_of_plug _ native with
    ⟨d', within, rfl⟩ | ⟨k, ⟨answer, s₁, state₁⟩, j, ended, le, rest⟩
  · rw [invokes?_plug] at invokes
    exact .inl (((natives n (Nat.lt_succ_self n) _ _ _ _ _ within invokes).plug _).after
      (begun.trans first))
  · have ran := first.trans (reaches_plug (.call base saved below outer) ended)
    obtain _ | j := j
    · obtain rfl := Option.some.inj rest
      cases invokes
    · refine .inr ?_
      cases answer with
      | error fault =>
        have back : step host ⟨s₁, state₁, .deliver .unit (.error fault) _⟩ = _ :=
          step_return_fault s₁ state₁ base saved below outer fault
        exact ⟨_, _, _, _, _, j, by rw [hact]; exact .invokeFault ⟨k, ended⟩, by omega,
          ran.trans (.head back (.refl _)), (advance_step back).symm.trans rest⟩
      | ok u =>
        have back : step host ⟨s₁, state₁, .deliver .unit (.ok u) _⟩ = _ :=
          step_return_ok s₁ state₁ base saved below outer
        exact ⟨_, _, _, _, _, j, by rw [hact]; exact .invoke ⟨k, ended⟩, by omega,
          ran.trans (.head back (.refl _)), (advance_step back).symm.trans rest⟩

/-- When `call` is made, it has come about, or the frame that the run goes on from has completed. -/
theorem drive_recorded {n : Nat} {d : Config H z} {before : List (Invocation H)}
    (natives : NativesRecorded host n)
    (begun : Reaches host c before ⟨s, state, .drive base top below inner outer⟩)
    (introduced : top.Introduced inner s)
    (own : OwnRecorded host c ⟨s, state, .drive base top below inner outer⟩)
    (reached : advance host n ⟨s, state, .drive base top below inner outer⟩ = some d)
    (invokes : d.invokes? host = some call) :
    Recorded host c d call ∨ Outlived host n d s state base top below inner outer := by
  induction n using Nat.strongRecOn generalizing s state base top below inner before with
  | ind n ih =>
    obtain _ | n := n
    · obtain rfl := Option.some.inj reached
      exact .inl (own call invokes)
    rcases hact : top.act inner s with ⟨fault | move, scene⟩
    · exact .inr (outlived_of_step (step_fault hact) (by rw [hact]; exact .fault) reached)
    · cases move with
      | done phase =>
        exact .inr (outlived_of_step (step_done hact) (by rw [hact]; exact .done) reached)
      | invoke target args saved => exact native_recorded natives begun hact reached invokes
      | stay self =>
        have st : step host ⟨s, state, .drive base top below inner outer⟩ = _ := step_stay hact
        have first := Reaches.head st (.refl _)
        cases act_course hact introduced.unnamed with
        | aloof _ _ goesOn =>
          obtain ⟨aloof, unnamed⟩ := goesOn
          have other := not_invoking (balanced_of_aloof aloof)
          have onward := (advance_step st).symm.trans reached
          rcases ih n (Nat.lt_succ_self n) (natives.mono (Nat.le_succ n)) (begun.trans first)
            (unnamed.introduced aloof none _) (ownRecorded_of_other unnamed other) onward with
            recorded | outlived
          · exact .inl recorded
          · exact .inr (outlived.of_stay hact)
      | push self child =>
        by_cases room : scene.session.depth < scene.session.limits.maxDepth
        · have st : step host ⟨s, state, .drive base top below inner outer⟩ = _ :=
            step_push hact room
          have first := Reaches.head st (.refl _)
          obtain ⟨childIntroduced, other, selfIntroduced⟩ :=
            (act_course hact introduced.unnamed).pushes
          have onward := (advance_step st).symm.trans reached
          rcases ih n (Nat.lt_succ_self n) (natives.mono (Nat.le_succ n)) (begun.trans first)
            childIntroduced (ownRecorded_of_other childIntroduced.unnamed other) onward with
            recorded | ⟨r, s₁, state₁, cs, ds, m, comp, lt, leads, rest⟩
          · exact .inl recorded
          · have passed := first.trans leads
            cases r with
            | error fault =>
              exact .inr ⟨.error fault, s₁, state₁, cs, _, m,
                by rw [hact]; exact .pushFault room comp, by omega, passed, rest⟩
            | ok phase =>
              rcases ih m (by omega) (natives.mono (by omega)) (begun.trans passed)
                (selfIntroduced phase s₁) (comp.ownRecorded begun introduced hact passed) rest with
                recorded | outlived
              · exact .inl recorded
              · exact .inr (outlived.of_push (by omega) hact room comp passed)
        · have full := Nat.not_lt.mp room
          exact .inr
            (outlived_of_step (step_limit hact full) (by rw [hact]; exact .limit full) reached)

end Drive

/-! ### Runs from the start of an activity -/

def Waiting.Clean {a : Ask} : Waiting H z a → Prop
  | .idle => True
  | .call _ _ _ _ => False
  | .script _ _ _ outer => outer.Clean
  | .enclosed _ outer => outer.Clean
  | .afterEval _ outer => outer.Clean
  | .afterParse _ outer => outer.Clean

def Control.Clean : Control H z → Prop
  | .drive _ top below inner outer =>
    (∃ flags start, Frame.start flags start = .ok top) ∧ below = [] ∧ inner = none ∧ outer.Clean
  | .program _ outer => outer.Clean
  | .deliver _ _ outer => outer.Clean

theorem start_introduced {flags : Flags} {start : Phase} {f : Frame}
    (h : Frame.start flags start = .ok f) (s : Session) :
    f.Introduced none s ∧ ∀ name target, f.construct ≠ .call name (.invoking (some target)) := by
  cases start <;> cases h <;> exact ⟨Frame.unnamed_of_unseeded rfl, nofun⟩

theorem completed_clean {outer : Waiting H z .phase} (clean : outer.Clean) (base : Nat)
    (r : Except Fault Phase) (s : Session) (state : H) :
    (completed base [] outer r s state).control.Clean := by
  cases r <;> exact clean

theorem beginParse_clean (outer : Waiting H z .phase) (clean : outer.Clean) (s : Session)
    (start : Phase) (flags : Flags) : (beginParse s start flags outer).2.Clean := by
  rcases Session.begins_or_refused s start flags with ⟨room, frame, hstart⟩ | refused
  · rw [Session.beginParse_start room hstart outer]
    exact ⟨⟨flags, start, hstart⟩, rfl, rfl, clean⟩
  · obtain ⟨fault, _, hbegin⟩ := Session.beginParse_refused refused
    rw [hbegin outer]
    exact clean

theorem startEval_clean (outer : Waiting H z .text) (clean : outer.Clean) (s : Session)
    (enclosed : Bool) (script : String) : (startEval s enclosed script outer).2.2.Clean := by
  cases enclosed with
  | false =>
    exact beginParse_clean (.script s.input s.call s.scopes.depth outer) clean _ .stmt .execute
  | true =>
    exact beginParse_clean
      (.script s.input s.call s.scopes.openBlock.2.depth (.enclosed s.scopes.depth outer))
      (by simpa [Waiting.Clean] using clean) _ .stmt .execute

theorem programStep_clean {outer : Waiting H z .unit} (clean : outer.Clean) (s : Session)
    (state : H) (p : Program H Unit) : (programStep s state outer p).2.2.2.Clean := by
  cases p with
  | eval enclosed script next =>
    exact startEval_clean (.afterEval next outer) clean s enclosed script
  | parse start flags next =>
    exact beginParse_clean (.afterParse next outer) clean s start flags
  | _ => exact clean

theorem scriptStep_clean {outer : Waiting H z .text} (clean : outer.Clean) (s : Session)
    (input : Input) (saved : Option Call) (blocks : Nat) (r : Except Fault Phase) :
    (scriptStep s input saved blocks r outer).2.2.Clean := by
  cases r with
  | error fault => exact clean
  | ok phase =>
    cases phase with
    | stmtDone =>
      exact beginParse_clean (.script input saved blocks outer) clean s .stmt .execute
    | _ => exact clean

theorem deliverStep_clean {s : Session} {state : H} {answer : Except Fault a.Answer}
    {outer : Waiting H z a} {next : Config H z} (clean : outer.Clean)
    (st : step host ⟨s, state, .deliver a answer outer⟩ = .inr next) : next.control.Clean := by
  cases outer with
  | idle => simp [step_deliver, deliverStep] at st
  | call base saved below outer => exact absurd clean id
  | script input saved blocks outer =>
    obtain rfl := Sum.inr.inj st
    exact scriptStep_clean clean s input saved blocks answer
  | enclosed blocks outer =>
    obtain rfl := Sum.inr.inj st
    exact clean
  | afterEval next outer =>
    obtain rfl := Sum.inr.inj st
    exact clean
  | afterParse next outer =>
    obtain rfl := Sum.inr.inj st
    exact clean

/-- Every call in a run from the start of an activity has come about in that run. -/
theorem recorded_of_clean {n : Nat} : ∀ {z : Ask} {c d : Config H z} {call : Invocation H},
    c.control.Clean → advance host n c = some d → d.invokes? host = some call →
    Recorded host c d call := by
  -- On the number of steps: a native function has fewer for its program, and what comes behind a
  -- completed frame fewer than the frame had.
  induction n using Nat.strongRecOn with
  | ind n ih =>
    intro z c d call clean reached invokes
    have onward : ∀ m next, n = m + 1 → step host c = .inr next → next.control.Clean →
        Recorded host c d call := by
      rintro m next rfl st clean
      exact (ih m (Nat.lt_succ_self m) clean ((advance_step st).symm.trans reached) invokes).after
        (.head st (.refl _))
    obtain ⟨s, state, control⟩ := c
    cases control with
    | drive base top below inner outer =>
      obtain ⟨⟨flags, start, begins⟩, rfl, rfl, clean⟩ := clean
      obtain ⟨introduced, other⟩ := start_introduced begins s
      have natives : NativesRecorded host n := fun m lt p s state d call =>
        ih m lt (c := ⟨s, state, .program p .idle⟩) trivial
      have own : OwnRecorded host ⟨s, state, .drive base top [] none outer⟩
          ⟨s, state, .drive base top [] none outer⟩ :=
        ownRecorded_of_other introduced.unnamed other
      rcases drive_recorded natives (.refl _) introduced own reached invokes with
        recorded | ⟨r, s', state', cs, ds, m, comp, lt, leads, rest⟩
      · exact recorded
      · exact (ih m lt (completed_clean clean base r s' state') rest invokes).after leads
    | program p outer =>
      cases n with
      | zero =>
        obtain rfl := Option.some.inj reached
        cases invokes
      | succ n => exact onward n _ rfl (step_program ..) (programStep_clean clean s state p)
    | deliver a answer outer =>
      cases n with
      | zero =>
        obtain rfl := Option.some.inj reached
        cases invokes
      | succ n =>
        cases st : step host ⟨s, state, .deliver a answer outer⟩ with
        | inl fin => simp [advance, st] at reached
        | inr next => exact onward n next rfl st (deliverStep_clean clean st)

end Machine

namespace Session

open Machine

variable {H : Type}

/-- Call records nest. Wherever a native function is called, in an evaluation or a parse or in what
native functions evaluate and parse in their turn, the record of the session is the name called with
the arguments that the function is passed, which are the values of the call's own arguments from
left to right. A function that is not there behind its name and parenthesis is an error at once, and
a call that completes leaves the record that it found. -/
theorem call_records (host : Host H) :
    (∀ (s : Session) (state : H) (enclosed : Bool) (script : String) cs d call,
      Reaches host (s.evalStart host state enclosed script) cs d → d.invokes? host = some call →
      Recorded host (s.evalStart host state enclosed script) d call) ∧
    (∀ (s : Session) (state : H) (start : Phase) (flags : Flags) cs d call,
      Reaches host (s.parseStart state start flags) cs d → d.invokes? host = some call →
      Recorded host (s.parseStart state start flags) d call) ∧
    (∀ (z : Ask) (s : Session) (state : H) base flags name below (outer : Waiting H z .phase) t i,
      flags.executes = true → s.input.next .expr = (t, i) → t.kind = .lparen →
      s.functions.get? name = none →
      (Fault.Cause.undefinedFunction name).kind = .reference ∧
      step host ⟨s, state, .drive base ⟨flags, .call name .opening⟩ below none outer⟩ =
        .inr ⟨{ s with input := i, token := t, depth := base }, host.absorb [.token .expr t] state,
          .deliver .phase (.error (Fault.orLine { cause := .undefinedFunction name } i.line))
            outer⟩) ∧
    ∀ flags name (s s' : Session) (state state' : H) phase cs,
      Completes host "call" ((⟨flags, .call name .opening⟩ : Frame).act none s) state (.ok phase)
        s' state' cs → s'.call = s.call := by
  refine ⟨?_, ?_, ?_, ?_⟩
  · intro s state enclosed script cs d call reached invokes
    obtain ⟨n, reached⟩ := reached.advance
    have clean := startEval_clean (.idle : Waiting H .text .text) trivial s enclosed script
    exact recorded_of_clean clean reached invokes
  · intro s state start flags cs d call reached invokes
    obtain ⟨n, reached⟩ := reached.advance
    have clean := beginParse_clean (.idle : Waiting H .phase .phase) trivial s start flags
    exact recorded_of_clean clean reached invokes
  · intro z s state base flags name below outer t i executes read opens missing
    refine ⟨rfl, ?_⟩
    have hact : (⟨flags, .call name .opening⟩ : Frame).act none s =
        (.error { cause := .undefinedFunction name }, Act.took { session := s } .expr t i) := by
      have proper : t.kind ≠ .error := by simp [opens]
      show (Frame.stepCall flags name .opening).on { session := s } = _
      rw [Frame.stepCall, Act.expect_bind_eq, Act.on_bind, Act.on_nextToken read, if_neg proper]
      dsimp only
      rw [if_neg (not_not_intro opens), if_pos executes, Act.on_bind, Act.on_session]
      dsimp only [Act.took]
      rw [missing]
      rfl
    exact step_fault hact
  · intro flags name s s' state state' phase cs comp
    exact comp.leaves rfl (Frame.unnamed_of_unseeded rfl)

/-- A function evaluates a script of its own, with nested calls, while the call that it is an
argument of is half made. -/
theorem call_records_nested :
    let host : Host Unit :=
      { natives := fun key args =>
          if key = "run" then
            .eval true "join(1, join(2, 3))" fun _ => .request (.setResult "ran") .done
          else .request (.setResult (String.join args)) .done }
    let s : Session :=
      { id := ⟨0, 1⟩
        call := some ⟨"outer", ["x"]⟩
        functions := ((Table.insert {} "f" ⟨"f", true⟩).insert "run" ⟨"run", true⟩).insert "join"
          ⟨"join", true⟩ }
    let start := s.evalStart host () false "f(join(4, 5), run(6), 7)"
    let t : Session := { s with input := .ofScript "(f(1))" }
    (∃ d call, call.args = ["1", "23"] ∧ Recorded host start d call) ∧
    (∃ d call, call.args = ["45", "ran", "7"] ∧ Recorded host start d call) ∧
    (∃ d call, call.args = ["1"] ∧ Recorded host (t.parseStart () .expr .execute) d call) ∧
    step host ⟨t, (), .drive 0 ⟨.execute, .call "missing" .opening⟩ [] none
        (.idle : Waiting Unit .phase .phase)⟩ =
      .inr ⟨{ t with input := (t.input.next .expr).2, token := (t.input.next .expr).1 },
        (), .deliver .phase (.error { cause := .undefinedFunction "missing", line := 1 }) .idle⟩ ∧
    ∃ s' state' cs, Completes host "call"
      ((⟨.execute, .call "f" .opening⟩ : Frame).act none t) () (.ok .exprDone) s' state' cs ∧
      s'.call = some ⟨"outer", ["x"]⟩ := by
  intro host s start t
  obtain ⟨evals, parses, missing, completes⟩ := call_records host
  have made : ∀ {z : Ask} (c : Config Unit z) n args, ((advance host n c).bind fun d =>
      (d.invokes? host).map (·.args)) = some args →
      ∃ cs d call, Reaches host c cs d ∧ d.invokes? host = some call ∧ call.args = args := by
    intro z c n args h
    obtain ⟨d, reached, h⟩ := Option.bind_eq_some_iff.mp h
    obtain ⟨call, invokes, passed⟩ := Option.map_eq_some_iff.mp h
    obtain ⟨cs, reached⟩ := reaches_of_advance reached
    exact ⟨cs, d, call, reached, invokes, passed⟩
  refine ⟨?_, ?_, ?_, ?_, ?_⟩
  · obtain ⟨cs, d, call, reached, invokes, passed⟩ := made start 83 ["1", "23"] (by decide +kernel)
    exact ⟨d, call, passed, evals _ _ _ _ cs d call reached invokes⟩
  · obtain ⟨cs, d, call, reached, invokes, passed⟩ :=
      made start 110 ["45", "ran", "7"] (by decide +kernel)
    exact ⟨d, call, passed, evals _ _ _ _ cs d call reached invokes⟩
  · obtain ⟨cs, d, call, reached, invokes, passed⟩ :=
      made (t.parseStart () .expr .execute) 12 ["1"] (by decide +kernel)
    exact ⟨d, call, passed, parses _ _ _ _ cs d call reached invokes⟩
  · exact (missing .phase t () 0 .execute "missing" [] .idle _ _ rfl rfl (by decide +kernel)
      (by decide +kernel)).2
  · have ends : (run host 80 (⟨t, (), .drive 0 ⟨.execute, .call "f" .opening⟩ [] none .idle⟩ :
        Config Unit .phase)).map (fun fin => match fin.answer with
          | .ok phase => some phase
          | .error _ => none) = some (some .exprDone) := by
      decide +kernel
    obtain ⟨fin, ended, answered⟩ := Option.map_eq_some_iff.mp ends
    obtain ⟨r, s', state', cs, m, comp, -, rest, -⟩ := completes_of_run rfl ended
    rw [completed_nil] at rest
    cases m with
    | zero => cases rest
    | succ m =>
      obtain rfl := Option.some.inj rest
      cases r with
      | error fault => cases answered
      | ok phase =>
        obtain rfl : phase = .exprDone := Option.some.inj answered
        exact ⟨s', state', cs, comp, completes _ _ t s' () state' _ cs comp⟩

end Session

end Scriptlet
