import Mathlib.Algebra.GroupWithZero.Nat
import Scriptlet.Proofs.Depth

/-!
The ceiling on nesting. At every moment the depth counter of a session is the number of frames on
all the stacks in use, those of parses that wait for a native function included. It never passes the
limit, it stays above the depth that a stack in use was started at, and it is back there as soon as
the parse is over, whether that has succeeded or not.
-/

namespace Scriptlet

def Session.Climbs (s t : Session) : Prop :=
  t.depth ≤ s.depth ∨ t.depth = s.depth + 1 ∧ s.depth < s.limits.maxDepth

namespace Machine

variable {H : Type} {z : Ask} {host : Host H}

/-- A stack of frames in use: the depth it was started at, how many frames are on it, and who waits
for the answer. -/
structure Drive (H : Type) (z : Ask) where
  base : Nat
  live : Nat
  outer : Waiting H z .phase

def Waiting.drives {a : Ask} : Waiting H z a → List (Drive H z)
  | .idle => []
  | .call base _ below outer => ⟨base, below.length + 1, outer⟩ :: outer.drives
  | .script _ _ _ outer => outer.drives
  | .enclosed _ outer => outer.drives
  | .afterEval _ outer => outer.drives
  | .afterParse _ outer => outer.drives

def Control.drives : Control H z → List (Drive H z)
  | .drive base _ below _ outer => ⟨base, below.length + 1, outer⟩ :: outer.drives
  | .program _ outer => outer.drives
  | .deliver _ _ outer => outer.drives

def live (drives : List (Drive H z)) : Nat := (drives.map Drive.live).sum

@[simp] theorem live_cons (drive : Drive H z) (drives : List (Drive H z)) :
    live (drive :: drives) = drive.live + live drives := List.sum_cons

/-! ### The counter -/

section Level

variable {d n : Nat}

/-- The level of a chain is the number of frames that it has in use. -/
theorem Waiting.Level.counts {a : Ask} {w : Waiting H z a} (h : w.Level d n) :
    n = d + live w.drives := by
  induction w generalizing n with
  | idle => exact h
  | call base saved below outer ih =>
    obtain ⟨depth, outside⟩ := h
    have below := ih outside
    simp only [drives, live_cons]
    omega
  | script _ _ _ outer ih => exact ih h
  | enclosed _ outer ih => exact ih h
  | afterEval _ outer ih => exact ih h
  | afterParse _ outer ih => exact ih h

/-- Every stack that waits was started below the level. -/
theorem Waiting.Level.above {a : Ask} {w : Waiting H z a} (h : w.Level d n) :
    ∀ drive ∈ w.drives, drive.base < n ∧ drive.outer.Level d drive.base := by
  induction w generalizing n with
  | idle => nofun
  | call base saved below outer ih =>
    obtain ⟨depth, outside⟩ := h
    intro drive inside
    rcases List.mem_cons.mp inside with rfl | later
    · exact ⟨by simp only; omega, outside⟩
    · obtain ⟨lower, level⟩ := ih outside drive later
      exact ⟨by omega, level⟩
  | script _ _ _ outer ih => exact ih h
  | enclosed _ outer ih => exact ih h
  | afterEval _ outer ih => exact ih h
  | afterParse _ outer ih => exact ih h

theorem Control.Level.counts {control : Control H z} (h : control.Level d n) :
    n = d + live control.drives := by
  cases control with
  | drive base top below inner outer =>
    obtain ⟨depth, outside⟩ := h
    have below := outside.counts
    simp only [drives, live_cons]
    omega
  | program p outer => exact Waiting.Level.counts h
  | deliver a answer outer => exact Waiting.Level.counts h

theorem Control.Level.above {control : Control H z} (h : control.Level d n) :
    ∀ drive ∈ control.drives, drive.base < n ∧ drive.outer.Level d drive.base := by
  cases control with
  | drive base top below inner outer =>
    exact Waiting.Level.above (w := Waiting.call base none below outer) h
  | program p outer => exact Waiting.Level.above h
  | deliver a answer outer => exact Waiting.Level.above h

end Level

/-! ### The limit -/

theorem beginParse_climbs (s : Session) (start : Phase) (flags : Flags)
    (outer : Waiting H z .phase) : s.Climbs (beginParse s start flags outer).1 := by
  rcases Session.begins_or_refused s start flags with ⟨room, frame, hstart⟩ | refused
  · rw [Session.beginParse_start room hstart outer]
    exact .inr ⟨rfl, room⟩
  · obtain ⟨fault, -, hbegin⟩ := Session.beginParse_refused refused
    rw [hbegin outer]
    exact .inl (Nat.le_refl _)

theorem startEval_climbs (s : Session) (enclosed : Bool) (script : String)
    (outer : Waiting H z .text) : s.Climbs (startEval s enclosed script outer).1 := by
  cases enclosed with
  | false =>
    exact beginParse_climbs
      { s with input := .ofScript script, call := none, result := "", report := none }
      .stmt .execute (.script s.input s.call s.scopes.depth outer)
  | true =>
    exact beginParse_climbs { s with
      scopes := s.scopes.openBlock.2, input := .ofScript script, call := none, result := "",
      report := none } .stmt .execute _

/-- Whatever is left of a stack is not higher. -/
theorem completed_climbs {base : Nat} {s : Session} (above : base ≤ s.depth) (below : List Frame)
    (outer : Waiting H z .phase) (r : Except Fault Phase) (state : H) :
    (completed base below outer r s state).session.depth ≤ s.depth := by
  cases r with
  | error fault => exact above
  | ok phase =>
    cases below with
    | nil => exact above
    | cons next rest => exact Nat.le_refl _

theorem driveStep_climbs {s : Session} {state : H} {base : Nat} {top : Frame} {below : List Frame}
    {inner : Option Phase} {outer : Waiting H z .phase} {next : Config H z}
    (above : base < s.depth)
    (st : step host ⟨s, state, .drive base top below inner outer⟩ = .inr next) :
    s.Climbs next.session := by
  obtain ⟨depth, limits⟩ := top.act_depth inner s
  rcases hact : top.act inner s with ⟨fault | move, scene⟩
  · rw [hact] at depth
    rw [step_fault hact] at st
    obtain rfl := Sum.inr.inj st
    exact .inl (depth ▸ completed_climbs (by rw [depth]; omega) _ _ _ _)
  · rw [hact] at depth limits
    cases move with
    | done phase =>
      rw [step_done hact] at st
      obtain rfl := Sum.inr.inj st
      have lower : scene.session.leave.depth = s.depth - 1 := congrArg (· - 1) depth
      have under : base ≤ scene.session.leave.depth := by omega
      have le := completed_climbs under below outer (.ok phase)
        (host.absorb (.done top.name phase :: scene.journal) state)
      exact .inl (by omega)
    | stay self =>
      rw [step_stay hact] at st
      obtain rfl := Sum.inr.inj st
      exact .inl (Nat.le_of_eq depth)
    | push self child =>
      by_cases room : scene.session.depth < scene.session.limits.maxDepth
      · rw [step_push hact room] at st
        obtain rfl := Sum.inr.inj st
        rw [depth, limits] at room
        exact .inr ⟨congrArg (· + 1) depth, room⟩
      · rw [step_limit hact (Nat.not_lt.mp room)] at st
        obtain rfl := Sum.inr.inj st
        exact .inl (depth ▸ completed_climbs (by rw [depth]; omega) _ _ _ _)
    | invoke target args saved =>
      rw [step_invoke hact] at st
      obtain rfl := Sum.inr.inj st
      exact .inl (Nat.le_of_eq depth)

theorem programStep_climbs (s : Session) (state : H) (outer : Waiting H z .unit)
    (p : Program H Unit) : s.Climbs (programStep s state outer p).1 := by
  cases p with
  | request r next => exact .inl (Nat.le_of_eq (answer_depth s r).1)
  | eval enclosed script next => exact startEval_climbs s enclosed script _
  | parse start flags next => exact beginParse_climbs s start flags _
  | _ => exact .inl (Nat.le_refl _)

theorem scriptStep_climbs (s : Session) (input : Input) (saved : Option Call) (blocks : Nat)
    (r : Except Fault Phase) (outer : Waiting H z .text) :
    s.Climbs (scriptStep s input saved blocks r outer).1 := by
  rcases r with fault | phase
  · exact .inl (Nat.le_refl _)
  · cases phase with
    | stmtDone => exact beginParse_climbs s .stmt .execute _
    | _ => exact .inl (Nat.le_refl _)

/-- No step raises the counter but by one, and where there is room. -/
theorem step_climbs {d : Nat} {c next : Config H z} (level : c.control.Level d c.session.depth)
    (st : step host c = .inr next) : c.session.Climbs next.session := by
  obtain ⟨s, state, control⟩ := c
  cases control with
  | drive base top below inner outer =>
    have depth : s.depth = base + below.length + 1 := level.1
    have above : base < s.depth := by omega
    exact driveStep_climbs above st
  | program p outer =>
    rw [step_program] at st
    obtain rfl := Sum.inr.inj st
    exact programStep_climbs s state outer p
  | deliver a answer outer =>
    cases outer with
    | idle => cases st
    | call base saved below outer =>
      have depth : s.depth = base + below.length + 1 := level.1
      cases answer with
      | ok u =>
        rw [step_return_ok] at st
        obtain rfl := Sum.inr.inj st
        have lower : { s with call := saved }.leave.depth = s.depth - 1 := rfl
        have under : base ≤ { s with call := saved }.leave.depth := by omega
        have le := completed_climbs under below outer (.ok .exprDone)
          (host.absorb [.done "call" .exprDone] state)
        refine .inl (Nat.le_trans le ?_)
        exact Nat.sub_le s.depth 1
      | error fault =>
        rw [step_return_fault] at st
        obtain rfl := Sum.inr.inj st
        exact .inl (completed_climbs (s := { s with call := saved }) (by simp only; omega) _ _ _ _)
    | script input saved blocks outer =>
      obtain rfl := Sum.inr.inj st
      exact scriptStep_climbs s input saved blocks answer outer
    | enclosed blocks outer =>
      obtain rfl := Sum.inr.inj st
      exact .inl (Nat.le_refl _)
    | afterEval next outer =>
      obtain rfl := Sum.inr.inj st
      exact .inl (Nat.le_refl _)
    | afterParse next outer =>
      obtain rfl := Sum.inr.inj st
      exact .inl (Nat.le_refl _)

/-! ### Runs -/

variable {d : Nat} {c c' : Config H z} {cs : List (Invocation H)}

/-- The count is kept along a run, and so is the room below the limit. -/
theorem Reaches.level (h : Reaches host c cs c') (level : c.control.Level d c.session.depth)
    (room : c.session.depth ≤ c.session.limits.maxDepth) :
    c'.control.Level d c'.session.depth ∧ c'.session.depth ≤ c'.session.limits.maxDepth ∧
      c'.session.limits = c.session.limits := by
  induction h with
  | refl => exact ⟨level, room, rfl⟩
  | @head c next _ _ st _ ih =>
    obtain ⟨onward, limits⟩ := step_level level st
    have ceiling : next.session.depth ≤ c.session.limits.maxDepth := by
      rcases step_climbs level st with le | ⟨eq, lt⟩
      · exact Nat.le_trans le room
      · exact eq ▸ lt
    obtain ⟨last, under, same⟩ := ih onward (limits ▸ ceiling)
    exact ⟨last, under, same.trans limits⟩

/-- What holds wherever a run stands that was started on the session `s`. -/
structure Within (host : Host H) (s : Session) (c : Config H z) : Prop where
  counts : c.session.depth = s.depth + live c.control.drives
  ceiling : c.session.depth ≤ s.limits.maxDepth
  above : ∀ drive ∈ c.control.drives, 0 < c.session.depth ∧ drive.base ≤ c.session.depth - 1
  based : ∀ drive ∈ c.control.drives, drive.base = s.depth + live drive.outer.drives
  restored : ∀ drive ∈ c.control.drives, ∀ ds c' answer, Reaches host c ds c' →
    c'.control = .deliver .phase answer drive.outer → c'.session.depth = drive.base

theorem Reaches.within {s : Session} (h : Reaches host c cs c')
    (level : c.control.Level s.depth c.session.depth) (limits : c.session.limits = s.limits)
    (room : c.session.depth ≤ s.limits.maxDepth) : Within host s c' := by
  obtain ⟨level', room', same⟩ := h.level level (limits ▸ room)
  refine ⟨level'.counts, ?_, ?_, ?_, ?_⟩
  · rwa [same, limits] at room'
  · intro drive inside
    have lower := (level'.above drive inside).1
    omega
  · exact fun drive inside => (level'.above drive inside).2.counts
  · intro drive inside ds last answer later finished
    have ended := (later.level level' room').1
    rw [finished] at ended
    have counted : last.session.depth = s.depth + live drive.outer.drives :=
      Waiting.Level.counts ended
    rw [counted]
    exact (level'.above drive inside).2.counts.symm

end Machine

namespace Session

open Machine

variable {H : Type}

def parseStart (s : Session) (state : H) (start : Phase) (flags : Flags) : Config H .phase :=
  ⟨(beginParse (H := H) s start flags .idle).1, state, (beginParse s start flags .idle).2⟩

theorem parse_eq_run (host : Host H) (fuel : Nat) (s : Session) (state : H) (start : Phase)
    (flags : Flags) :
    s.parse host fuel state start flags = run host fuel (s.parseStart state start flags) := rfl

theorem eval_eq_run (host : Host H) (fuel : Nat) (s : Session) (state : H) (enclosed : Bool)
    (script : String) :
    s.eval host fuel state enclosed script =
      run host fuel (s.evalStart host state enclosed script) := rfl

/-- The ceiling holds at every moment of every parse and evaluation, also while native functions
parse and evaluate in their turn, and whichever way it ends, the counter is back where it was. -/
theorem depth_ceiling (host : Host H) (s : Session) (room : s.depth ≤ s.limits.maxDepth)
    (state : H) :
    (∀ start flags,
      (∀ cs c, Reaches host (s.parseStart state start flags) cs c → Within host s c) ∧
      ∀ fuel fin, s.parse host fuel state start flags = some fin → fin.session.depth = s.depth) ∧
    ∀ enclosed script,
      (∀ cs c, Reaches host (s.evalStart host state enclosed script) cs c → Within host s c) ∧
      ∀ fuel fin, s.eval host fuel state enclosed script = some fin →
        fin.session.depth = s.depth := by
  have under : ∀ t : Session, s.Climbs t → t.depth ≤ s.limits.maxDepth := by
    rintro t (le | ⟨eq, lt⟩)
    · exact Nat.le_trans le room
    · exact eq ▸ lt
  refine ⟨fun start flags => ?_, fun enclosed script => ?_⟩
  · obtain ⟨level, limits⟩ := beginParse_level s start flags
      (.idle : Waiting H .phase .phase) (d := s.depth) rfl
    refine ⟨fun cs c h => ?_, fun fuel fin ends => ?_⟩
    · exact h.within level limits (under _ (beginParse_climbs s start flags .idle))
    · rw [parse_eq_run] at ends
      exact (run_level level ends).1
  · obtain ⟨level, limits⟩ := startEval_level s enclosed script
      (.idle : Waiting H .text .text) (d := s.depth) rfl
    refine ⟨fun cs c h => ?_, fun fuel fin ends => ?_⟩
    · exact h.within level limits (under _ (startEval_climbs s enclosed script .idle))
    · rw [eval_eq_run] at ends
      exact (run_level level ends).1

/-- A function that evaluates a script which calls it comes up against the ceiling. -/
theorem depth_ceiling_recursive :
    let host : Host Unit :=
      { natives := fun _ _ => .eval true "\x7b f(); \x7d" fun
          | .ok _ => .done ()
          | .error fault => .raise fault }
    let s : Session :=
      { id := ⟨0, 1⟩, limits := { maxDepth := 30 },
        functions := Table.insert {} "f" ⟨"f", true⟩ }
    ∃ fin, s.eval host 300 () false "f()" = some fin ∧
      fin.answer = .error { cause := .recursionLimit, line := 1 } ∧
      fin.session.depth = s.depth := by
  intro host s
  have ends : (s.eval host 300 () false "f()").bind (fun fin =>
      match fin.answer with
      | .ok _ => none
      | .error fault => some fault) = some { cause := .recursionLimit, line := 1 } := by
    decide +kernel
  obtain ⟨fin, executed, failed⟩ := Option.bind_eq_some_iff.mp ends
  have depth := ((depth_ceiling host s (by decide) ()).2 false "f()").2 300 fin executed
  generalize answered : fin.answer = answer at failed
  cases answer with
  | ok value => cases failed
  | error fault =>
    cases failed
    exact ⟨fin, executed, answered, depth⟩

end Session

end Scriptlet
