import Scriptlet.Machine
import Scriptlet.Proofs.Action

/-!
Runs of the machine. A run is cut at the places where an activity hands its answer to the one that
waits for it: what happens in between does not depend on who waits, so it can be run on its own.
Beside the answer a run has the list of native calls that the script itself makes.
-/

namespace Scriptlet.Machine

variable {H : Type} {y z a : Ask} {host : Host H}

structure Invocation (H : Type) where
  key : String
  args : List String
  session : Session
  state : H

def Waiting.inNative {a : Ask} : Waiting H z a → Bool
  | .idle => false
  | .script _ _ _ outer => outer.inNative
  | .enclosed _ outer => outer.inNative
  | .call _ _ _ _ | .afterEval _ _ | .afterParse _ _ => true

/-- The native call that the next step makes. Calls made by scripts that a native function runs in
its turn belong to that function and are left out. -/
def Config.call? (host : Host H) (c : Config H z) : Option (Invocation H) :=
  match c.control with
  | .drive _ top _ inner outer =>
    if outer.inNative then none
    else
      match (top.step inner).on { session := c.session } with
      | (.ok (.invoke target args _), scene) =>
        some ⟨target.key, args, scene.session, host.absorb scene.journal c.state⟩
      | _ => none
  | _ => none

def calls (host : Host H) : Nat → Config H z → List (Invocation H)
  | 0, _ => []
  | fuel + 1, c =>
    match step host c with
    | .inl _ => []
    | .inr next => (c.call? host).toList ++ calls host fuel next

inductive Reaches (host : Host H) : Config H z → List (Invocation H) → Config H z → Prop where
  | refl (c) : Reaches host c [] c
  | head {c next last cs} : step host c = .inr next → Reaches host next cs last →
      Reaches host c ((c.call? host).toList ++ cs) last

namespace Reaches

/-- A step of anything but a frame makes no call. -/
theorem quiet {c next last : Config H z} {cs : List (Invocation H)} (h : step host c = .inr next)
    (none : c.call? host = none) (rest : Reaches host next cs last) : Reaches host c cs last := by
  simpa [none] using head h rest

theorem trans {c d e : Config H z} {cs ds : List (Invocation H)} (h : Reaches host c cs d)
    (k : Reaches host d ds e) : Reaches host c (cs ++ ds) e := by
  induction h with
  | refl => exact k
  | head st _ ih =>
    rw [List.append_assoc]
    exact head st (ih k)

/-- What remains to be run is run after it, and the calls made by then come first. -/
theorem run_eq {c d : Config H z} {cs : List (Invocation H)} (h : Reaches host c cs d) :
    ∃ n, ∀ m, run host (n + m) c = run host m d ∧ calls host (n + m) c = cs ++ calls host m d := by
  induction h with
  | refl => exact ⟨0, fun m => by simp⟩
  | head st _ ih =>
    obtain ⟨n, hn⟩ := ih
    refine ⟨n + 1, fun m => ?_⟩
    have shift : n + 1 + m = n + m + 1 := by omega
    simp only [shift, run, calls, st, List.append_assoc]
    exact ⟨(hn m).1, by rw [(hn m).2]⟩

end Reaches

/-- A run that is over has taken a step. -/
theorem exists_succ_of_run {n : Nat} {c : Config H z} {fin : Finished H z}
    (h : run host n c = some fin) : ∃ k, n = k + 1 := by
  cases n with
  | zero => simp [run] at h
  | succ k => exact ⟨k, rfl⟩

/-- A run that is over stays over, whatever more steps it is granted. -/
theorem run_mono {n m : Nat} {c : Config H z} {fin : Finished H z} (h : run host n c = some fin)
    (le : n ≤ m) : run host m c = some fin ∧ calls host m c = calls host n c := by
  induction n generalizing m c with
  | zero => simp [run] at h
  | succ n ih =>
    obtain ⟨k, rfl⟩ : ∃ k, m = k + 1 := ⟨m - 1, by omega⟩
    cases st : step host c with
    | inl fin' =>
      simp only [run, st] at h ⊢
      exact ⟨h, by simp [calls, st]⟩
    | inr next =>
      simp only [run, st] at h
      have tail := ih h (by omega : n ≤ k)
      exact ⟨by simpa [run, st] using tail.1, by simp [calls, st, tail.2]⟩

/-- Further steps can only add calls behind those made. -/
theorem calls_prefix {n m : Nat} (c : Config H z) (le : n ≤ m) :
    calls host n c <+: calls host m c := by
  induction n generalizing m c with
  | zero => exact List.nil_prefix
  | succ n ih =>
    obtain ⟨k, rfl⟩ : ∃ k, m = k + 1 := ⟨m - 1, by omega⟩
    cases st : step host c with
    | inl fin => simp [calls, st]
    | inr next =>
      simp only [calls, st]
      exact (List.prefix_append_right_inj _).mpr (ih next (by omega))

/-- A run that has ended without a call makes none, however many steps it is granted. -/
theorem calls_eq_nil {n : Nat} {c : Config H z} {fin : Finished H z} (h : run host n c = some fin)
    (none : calls host n c = []) (m : Nat) : calls host m c = [] := by
  rcases Nat.le_total n m with le | le
  · rw [(run_mono h le).2, none]
  · exact List.prefix_nil.mp (none ▸ calls_prefix c le)

def resume (host : Host H) (state : H) (r : Session × List Event × Control H z) : Config H z :=
  ⟨r.1, host.absorb r.2.1 state, r.2.2⟩

theorem step_drive (s : Session) (state : H) (base : Nat) (top : Frame) (below : List Frame)
    (inner : Option Phase) (outer : Waiting H z .phase) :
    step host ⟨s, state, .drive base top below inner outer⟩ =
      .inr (resume host state (driveStep host s base top below inner outer)) := rfl

theorem step_program (s : Session) (state : H) (p : Program H Unit) (outer : Waiting H z .unit) :
    step host ⟨s, state, .program p outer⟩ =
      .inr (resume host (programStep s state outer p).2.1
        ((programStep s state outer p).1, (programStep s state outer p).2.2)) := rfl

/-- What a delivered answer leads to; nothing when the run is over. -/
theorem step_deliver (s : Session) (state : H) (answer : Except Fault a.Answer)
    (outer : Waiting H z a) :
    step host ⟨s, state, .deliver a answer outer⟩ =
      (deliverStep s answer outer).map (fun r => ⟨r, s, state⟩) (resume host state) := by
  simp only [step]
  cases deliverStep s answer outer <;> rfl

/-- A run is over only when an answer is left that nobody waits for. -/
theorem eq_of_finished {c : Config H z} {fin : Finished H z} (h : step host c = .inl fin) :
    c = ⟨fin.session, fin.state, .deliver z fin.answer .idle⟩ := by
  obtain ⟨s, state, control⟩ := c
  cases control with
  | drive base top below inner outer => simp [step_drive] at h
  | program p outer => simp [step_program] at h
  | deliver a answer outer =>
    rw [step_deliver] at h
    cases outer with
    | idle =>
      simp only [deliverStep, Sum.map_inl, Sum.inl.injEq] at h
      subst h
      rfl
    | call base saved below outer => cases answer <;> simp [deliverStep] at h
    | script input saved blocks outer => simp [deliverStep] at h
    | enclosed blocks outer => simp [deliverStep] at h
    | afterEval next outer => simp [deliverStep] at h
    | afterParse next outer => simp [deliverStep] at h

/-- A run without a call does not start with one. -/
theorem call?_of_silent {n : Nat} {c : Config H z} (silent : calls host (n + 1) c = []) :
    c.call? host = none := by
  cases st : step host c with
  | inl fin =>
    rw [eq_of_finished st]
    rfl
  | inr next =>
    simp only [calls, st] at silent
    simpa using (List.append_eq_nil_iff.mp silent).1

/-! ### Activities on their own -/

def Waiting.plug {a : Ask} : Waiting H y a → Waiting H z y → Waiting H z a
  | .idle, k => k
  | .call base saved below outer, k => .call base saved below (outer.plug k)
  | .script input saved blocks outer, k => .script input saved blocks (outer.plug k)
  | .enclosed blocks outer, k => .enclosed blocks (outer.plug k)
  | .afterEval next outer, k => .afterEval next (outer.plug k)
  | .afterParse next outer, k => .afterParse next (outer.plug k)

def Control.plug : Control H y → Waiting H z y → Control H z
  | .drive base top below inner outer, k => .drive base top below inner (outer.plug k)
  | .program p outer, k => .program p (outer.plug k)
  | .deliver a answer outer, k => .deliver a answer (outer.plug k)

def Config.plug (c : Config H y) (k : Waiting H z y) : Config H z :=
  ⟨c.session, c.state, c.control.plug k⟩

theorem inNative_plug (w : Waiting H y a) (k : Waiting H z y) :
    (w.plug k).inNative = (w.inNative || k.inNative) := by
  induction w with
  | idle => simp [Waiting.plug, Waiting.inNative]
  | script _ _ _ outer ih => exact ih
  | enclosed _ outer ih => exact ih
  | call _ _ _ outer => simp [Waiting.plug, Waiting.inNative]
  | afterEval _ outer => simp [Waiting.plug, Waiting.inNative]
  | afterParse _ outer => simp [Waiting.plug, Waiting.inNative]

section Plug

variable (k : Waiting H z y)

theorem beginParse_plug (s : Session) (start : Phase) (flags : Flags)
    (outer : Waiting H y .phase) :
    beginParse s start flags (outer.plug k) =
      ((beginParse s start flags outer).1, (beginParse s start flags outer).2.plug k) := by
  unfold beginParse
  split
  · rfl
  · split <;> rfl

theorem beginEval_plug (s : Session) (script : String) (outer : Waiting H y .text) :
    beginEval s script (outer.plug k) =
      ((beginEval s script outer).1, (beginEval s script outer).2.plug k) :=
  beginParse_plug k _ _ _ (.script s.input s.call s.scopes.depth outer)

theorem startEval_plug (s : Session) (enclosed : Bool) (script : String)
    (outer : Waiting H y .text) :
    startEval s enclosed script (outer.plug k) =
      ((startEval s enclosed script outer).1, (startEval s enclosed script outer).2.1,
        (startEval s enclosed script outer).2.2.plug k) := by
  cases enclosed with
  | false => simp [startEval, beginEval_plug]
  | true =>
    simp only [startEval, if_true]
    exact congrArg (fun r : Session × Control H z => (r.1, _, r.2))
      (beginEval_plug k _ script (.enclosed s.scopes.depth outer))

theorem finishFrame_plug (s : Session) (base : Nat) (frame : String) (below : List Frame)
    (phase : Phase) (outer : Waiting H y .phase) :
    finishFrame s base frame below phase (outer.plug k) =
      ((finishFrame s base frame below phase outer).1,
        (finishFrame s base frame below phase outer).2.1,
        (finishFrame s base frame below phase outer).2.2.plug k) := by
  cases below <;> rfl

theorem pushFrame_plug (s : Session) (base : Nat) (self inner : Frame) (below : List Frame)
    (outer : Waiting H y .phase) :
    pushFrame s base self inner below (outer.plug k) =
      ((pushFrame s base self inner below outer).1, (pushFrame s base self inner below outer).2.1,
        (pushFrame s base self inner below outer).2.2.plug k) := by
  unfold pushFrame
  split <;> rfl

theorem driveStep_plug (s : Session) (base : Nat) (top : Frame) (below : List Frame)
    (inner : Option Phase) (outer : Waiting H y .phase) :
    driveStep host s base top below inner (outer.plug k) =
      ((driveStep host s base top below inner outer).1,
        (driveStep host s base top below inner outer).2.1,
        (driveStep host s base top below inner outer).2.2.plug k) := by
  unfold driveStep
  rcases (top.step inner).run.run { session := s } with ⟨fault | move, scene⟩
  · rfl
  · cases move with
    | stay self => rfl
    | push self inner' => simp only [pushFrame_plug]
    | done phase => simp only [finishFrame_plug]
    | invoke target args saved => rfl

theorem scriptStep_plug (s : Session) (input : Input) (saved : Option Call) (blocks : Nat)
    (r : Except Fault Phase) (outer : Waiting H y .text) :
    scriptStep s input saved blocks r (outer.plug k) =
      ((scriptStep s input saved blocks r outer).1, (scriptStep s input saved blocks r outer).2.1,
        (scriptStep s input saved blocks r outer).2.2.plug k) := by
  cases r with
  | error fault => rfl
  | ok phase =>
    cases phase with
    | stmtDone =>
      exact congrArg (fun r : Session × Control H z => (r.1, [], r.2))
        (beginParse_plug k s .stmt .execute (.script input saved blocks outer))
    | _ => rfl

theorem programStep_plug (s : Session) (state : H) (outer : Waiting H y .unit)
    (p : Program H Unit) :
    programStep s state (outer.plug k) p =
      ((programStep s state outer p).1, (programStep s state outer p).2.1,
        (programStep s state outer p).2.2.1, (programStep s state outer p).2.2.2.plug k) := by
  cases p with
  | eval enclosed script next =>
    exact congrArg (fun r : Session × List Event × Control H z => (r.1, state, r.2.1, r.2.2))
      (startEval_plug k s enclosed script (.afterEval next outer))
  | parse start flags next =>
    exact congrArg (fun r : Session × Control H z => (r.1, state, [], r.2))
      (beginParse_plug k s start flags (.afterParse next outer))
  | _ => rfl

theorem deliverStep_plug (s : Session) (answer : Except Fault a.Answer) (outer : Waiting H y a)
    {r : Session × List Event × Control H y} (h : deliverStep s answer outer = .inr r) :
    deliverStep s answer (outer.plug k) = .inr (r.1, r.2.1, r.2.2.plug k) := by
  cases outer with
  | idle => simp [deliverStep] at h
  | call base saved below outer =>
    cases answer with
    | error fault =>
      simp only [deliverStep, Sum.inr.injEq] at h
      subst h
      rfl
    | ok u =>
      simp only [deliverStep, Sum.inr.injEq] at h
      subst h
      exact congrArg Sum.inr (finishFrame_plug k _ base "call" below .exprDone outer)
  | script input saved blocks outer =>
    simp only [deliverStep, Sum.inr.injEq] at h
    subst h
    exact congrArg Sum.inr (scriptStep_plug k s input saved blocks answer outer)
  | enclosed blocks outer =>
    simp only [deliverStep, Sum.inr.injEq] at h
    subst h
    rfl
  | afterEval next outer =>
    simp only [deliverStep, Sum.inr.injEq] at h
    subst h
    rfl
  | afterParse next outer =>
    simp only [deliverStep, Sum.inr.injEq] at h
    subst h
    rfl

/-- While an activity is not over, who waits for it makes no difference to its steps. -/
theorem step_plug {c next : Config H y} (h : step host c = .inr next) :
    step host (c.plug k) = .inr (next.plug k) := by
  obtain ⟨s, state, control⟩ := c
  cases control with
  | drive base top below inner outer =>
    rw [step_drive, Sum.inr.injEq] at h
    subst h
    exact congrArg (fun r => Sum.inr (resume host state r))
      (driveStep_plug k s base top below inner outer)
  | program p outer =>
    rw [step_program, Sum.inr.injEq] at h
    subst h
    exact congrArg (fun r => Sum.inr (resume host r.2.1 (r.1, r.2.2)))
      (programStep_plug k s state outer p)
  | deliver a answer outer =>
    rw [step_deliver] at h
    cases hr : deliverStep s answer outer with
    | inl final => simp [hr] at h
    | inr r =>
      rw [hr, Sum.map_inr, Sum.inr.injEq] at h
      subst h
      have onward := deliverStep_plug k s answer outer hr
      exact (step_deliver s state answer (outer.plug k)).trans (by rw [onward]; rfl)

/-- An activity that is over hands its answer on. -/
theorem plug_of_finished {c : Config H y} {fin : Finished H y} (h : step host c = .inl fin) :
    c.plug k = ⟨fin.session, fin.state, .deliver y fin.answer k⟩ := by
  rw [eq_of_finished h]
  rfl

theorem call?_plug (c : Config H y) :
    (c.plug k).call? host = if k.inNative then none else c.call? host := by
  obtain ⟨s, state, control⟩ := c
  cases control with
  | drive base top below inner outer =>
    simp only [Config.plug, Control.plug, Config.call?, inNative_plug]
    cases k.inNative <;> simp
  | program p outer => simp [Config.plug, Control.plug, Config.call?]
  | deliver a answer outer => simp [Config.plug, Control.plug, Config.call?]

/-- A finished run can be put on top of anything that waits for its answer. -/
theorem reaches_plug {n : Nat} {c : Config H y} {fin : Finished H y}
    (h : run host n c = some fin) :
    Reaches host (c.plug k) (if k.inNative then [] else calls host n c)
      ⟨fin.session, fin.state, .deliver y fin.answer k⟩ := by
  induction n generalizing c with
  | zero => simp [run] at h
  | succ n ih =>
    cases st : step host c with
    | inl fin' =>
      obtain rfl : fin' = fin := by simpa [run, st] using h
      rw [plug_of_finished k st]
      simpa [calls, st] using Reaches.refl _
    | inr next =>
      have rest := ih (c := next) (by simpa [run, st] using h)
      have first := Reaches.head (step_plug k st) rest
      rw [call?_plug] at first
      cases hk : k.inNative <;> simpa [calls, st, hk] using first

/-- A run under something that waits is a run on its own and then the rest. -/
theorem run_plug {n : Nat} {c : Config H y} {fin : Finished H z}
    (h : run host n (c.plug k) = some fin) :
    ∃ n₁ fin₁ m, run host n₁ c = some fin₁ ∧ m ≤ n ∧
      run host m ⟨fin₁.session, fin₁.state, .deliver y fin₁.answer k⟩ = some fin ∧
      calls host n (c.plug k) = (if k.inNative then [] else calls host n₁ c) ++
        calls host m ⟨fin₁.session, fin₁.state, .deliver y fin₁.answer k⟩ := by
  induction n generalizing c with
  | zero => simp [run] at h
  | succ n ih =>
    cases st : step host c with
    | inl fin' =>
      refine ⟨1, fin', n + 1, by simp [run, st], Nat.le_refl _, ?_, ?_⟩
      · rw [← plug_of_finished k st, h]
      · rw [← plug_of_finished k st]
        simp [calls, st]
    | inr next =>
      have onward : run host n (next.plug k) = some fin := by
        simpa [run, step_plug k st] using h
      obtain ⟨n₁, fin₁, m, hfin, hm, hrest, hcalls⟩ := ih onward
      refine ⟨n₁ + 1, fin₁, m, by simpa [run, st] using hfin, by omega, hrest, ?_⟩
      simp only [calls, step_plug k st, st, call?_plug, hcalls]
      cases k.inNative <;> simp

end Plug

end Scriptlet.Machine
