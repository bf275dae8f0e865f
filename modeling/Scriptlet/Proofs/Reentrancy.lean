import Scriptlet.Proofs.BlockIds
import Scriptlet.Proofs.Depth
import Scriptlet.Proofs.Indifference
import Scriptlet.Proofs.Performance

/-!
Re-entrancy. An evaluation may stop at a fault with blocks open, a call half assembled and tokens
put back, and native functions may start further evaluations from within it. Whatever happens, it
gives the session back with the script, the call and the depth that it interrupted. Blocks are
shared with native functions, so the list of open blocks is the same only if these leave it alone.
-/

namespace Scriptlet

def Session.place (s : Session) : Input × Option Call := (s.input, s.call)

namespace Machine

variable {H : Type} {z a : Ask} {host : Host H}

/-! ### The script and the call that an evaluation interrupts -/

/-- Handed an answer by a session that reads on at the second place, this chain ends in one that
reads on at the first. An evaluation makes the place of whatever it waits for irrelevant. -/
def Waiting.ReturnsTo (place : Input × Option Call) {a : Ask} :
    Waiting H z a → Input × Option Call → Prop
  | .idle, now => now = place
  | .script input saved _ outer, _ => outer.ReturnsTo place (input, saved)
  | .enclosed _ outer, now => outer.ReturnsTo place now
  | .call _ _ _ outer, _ => ∀ now, outer.ReturnsTo place now
  | .afterEval _ outer, _ => ∀ now, outer.ReturnsTo place now
  | .afterParse _ outer, _ => ∀ now, outer.ReturnsTo place now

def Control.ReturnsTo (place : Input × Option Call) : Control H z → Input × Option Call → Prop
  | .drive _ _ _ _ outer, _ => ∀ now, outer.ReturnsTo place now
  | .program _ outer, _ => ∀ now, outer.ReturnsTo place now
  | .deliver _ _ outer, now => outer.ReturnsTo place now

section Place

variable {place : Input × Option Call}

theorem completed_returnsTo {outer : Waiting H z .phase} (home : ∀ now, outer.ReturnsTo place now)
    (base : Nat) (below : List Frame) (r : Except Fault Phase) (s : Session) (state : H) :
    (completed base below outer r s state).control.ReturnsTo place
      (completed base below outer r s state).session.place := by
  cases r with
  | error fault => exact home _
  | ok phase =>
    cases below with
    | nil => exact home _
    | cons next rest => exact home

theorem beginParse_returnsTo (outer : Waiting H z .phase)
    (home : ∀ now, outer.ReturnsTo place now) (s : Session) (start : Phase) (flags : Flags) :
    (beginParse s start flags outer).2.ReturnsTo place
      (beginParse s start flags outer).1.place := by
  rcases Session.begins_or_refused s start flags with ⟨room, frame, hstart⟩ | refused
  · rw [Session.beginParse_start room hstart outer]
    exact home
  · obtain ⟨fault, _, hbegin⟩ := Session.beginParse_refused refused
    rw [hbegin outer]
    exact home _

/-- An evaluation returns to the place it is begun at. -/
theorem startEval_returnsTo (outer : Waiting H z .text) (s : Session) (enclosed : Bool)
    (script : String) (home : outer.ReturnsTo place s.place) :
    (startEval s enclosed script outer).2.2.ReturnsTo place
      (startEval s enclosed script outer).1.place := by
  cases enclosed with
  | false =>
    exact beginParse_returnsTo (.script s.input s.call s.scopes.depth outer) (fun _ => home) _
      .stmt .execute
  | true =>
    exact beginParse_returnsTo
      (.script s.input s.call (s.scopes.depth + 1) (.enclosed s.scopes.depth outer))
      (fun _ => home) _ .stmt .execute

theorem driveStep_returnsTo {s : Session} {state : H} {base : Nat} {top : Frame}
    {below : List Frame} {inner : Option Phase} {outer : Waiting H z .phase} {next : Config H z}
    (home : ∀ now, outer.ReturnsTo place now)
    (st : step host ⟨s, state, .drive base top below inner outer⟩ = .inr next) :
    next.control.ReturnsTo place next.session.place := by
  rcases hact : top.act inner s with ⟨fault | move, scene⟩
  · rw [step_fault hact, Sum.inr.injEq] at st
    exact st ▸ completed_returnsTo home ..
  · cases move with
    | done phase =>
      rw [step_done hact, Sum.inr.injEq] at st
      exact st ▸ completed_returnsTo home ..
    | stay self =>
      rw [step_stay hact, Sum.inr.injEq] at st
      exact st ▸ home
    | push self child =>
      by_cases room : scene.session.depth < scene.session.limits.maxDepth
      · rw [step_push hact room, Sum.inr.injEq] at st
        exact st ▸ home
      · rw [step_limit hact (Nat.not_lt.mp room), Sum.inr.injEq] at st
        exact st ▸ completed_returnsTo home ..
    | invoke target args saved =>
      rw [step_invoke hact, Sum.inr.injEq] at st
      exact st ▸ fun _ => home

theorem programStep_returnsTo {s : Session} {state : H} {outer : Waiting H z .unit}
    (p : Program H Unit) (home : ∀ now, outer.ReturnsTo place now) :
    (programStep s state outer p).2.2.2.ReturnsTo place
      (programStep s state outer p).1.place := by
  cases p with
  | done _ => exact home _
  | raise fault => exact home _
  | request r next => exact home
  | readHost next => exact home
  | writeHost state next => exact home
  | eval enclosed script next =>
    exact startEval_returnsTo (.afterEval next outer) s enclosed script home
  | parse start flags next =>
    exact beginParse_returnsTo (.afterParse next outer) (fun _ => home) s start flags

theorem scriptStep_returnsTo {s : Session} {input : Input} {call : Option Call} {blocks : Nat}
    {outer : Waiting H z .text} (r : Except Fault Phase)
    (home : outer.ReturnsTo place (input, call)) :
    (scriptStep s input call blocks r outer).2.2.ReturnsTo place
      (scriptStep s input call blocks r outer).1.place := by
  cases r with
  | error fault => exact home
  | ok phase =>
    cases phase with
    | stmtDone =>
      exact beginParse_returnsTo (.script input call blocks outer) (fun _ => home) s .stmt .execute
    | _ => exact home

theorem step_returnsTo {c next : Config H z} (home : c.control.ReturnsTo place c.session.place)
    (st : step host c = .inr next) : next.control.ReturnsTo place next.session.place := by
  obtain ⟨s, state, control⟩ := c
  cases control with
  | drive base top below inner outer => exact driveStep_returnsTo home st
  | program p outer =>
    rw [step_program, Sum.inr.injEq] at st
    exact st ▸ programStep_returnsTo p home
  | deliver a answer outer =>
    cases outer with
    | idle => simp [step_deliver, deliverStep] at st
    | call base saved below outer =>
      cases answer with
      | ok u =>
        rw [step_return_ok, Sum.inr.injEq] at st
        exact st ▸ completed_returnsTo home ..
      | error fault =>
        rw [step_return_fault, Sum.inr.injEq] at st
        exact st ▸ completed_returnsTo home ..
    | script input call blocks outer =>
      obtain rfl := Sum.inr.inj st
      exact scriptStep_returnsTo answer home
    | enclosed blocks outer =>
      obtain rfl := Sum.inr.inj st
      exact home
    | afterEval next outer =>
      obtain rfl := Sum.inr.inj st
      exact home
    | afterParse next outer =>
      obtain rfl := Sum.inr.inj st
      exact home

theorem run_returnsTo {n : Nat} {c : Config H z} {fin : Finished H z}
    (home : c.control.ReturnsTo place c.session.place) (h : run host n c = some fin) :
    fin.session.place = place := by
  induction n generalizing c with
  | zero => simp [run] at h
  | succ n ih =>
    cases st : step host c with
    | inr next => exact ih (step_returnsTo home st) (run_step st h)
    | inl fin' =>
      obtain rfl : fin' = fin := by simpa [run, st] using h
      rw [eq_of_finished st] at home
      exact home

end Place

end Machine

/-! ### The blocks that frames hold -/

def Frame.held (f : Frame) : List UInt32 := f.scope?.toList.map BlockId.serial

/-- What is open after a move of a frame that was begun over the blocks `base`: the block that the
frame still holds, or after a fault any blocks above those. A frame begins with none. -/
def Move.Over (base : List UInt32) (s : Session) : Except Fault Move → Prop
  | .error _ => base <:+ s.scopes.serials
  | .ok (.push self child) => s.scopes.serials = self.held ++ base ∧ child.scope? = none
  | .ok (.stay self) => s.scopes.serials = base ∧ self.scope? = none
  | .ok (.done _) | .ok (.invoke _ _ _) => s.scopes.serials = base

namespace ScopeStack

def numbering (scopes : ScopeStack) : UInt32 × List UInt32 := (scopes.serial, scopes.serials)

theorem numbering_assign (scopes : ScopeStack) (name value : String) :
    (scopes.assign name value).numbering = scopes.numbering := by
  refine Prod.ext ?_ (scopes.serials_assign name value)
  simp only [numbering, assign]
  split <;> rfl

theorem numbering_setLocal (scopes : ScopeStack) (name value : String) :
    (scopes.setLocal name value).numbering = scopes.numbering := by
  refine Prod.ext ?_ (scopes.serials_setLocal name value)
  simp only [numbering, setLocal]
  split <;> rfl

theorem serials_close {scopes scopes' : ScopeStack} {id : BlockId} {base : List UInt32}
    (h : scopes.close id = .ok scopes') (top : scopes.serials = id.serial :: base) :
    scopes'.serials = base := by
  obtain ⟨block, outer, blocks, _, _, rfl⟩ := close_eq_ok.mp h
  rw [serials, blocks, List.map_cons] at top
  exact (List.cons.inj top).2

/-- Truncated to a depth that it had before, a stack has the blocks that it had then. -/
theorem serials_truncate_suffix {scopes : ScopeStack} {base : List UInt32}
    (suffix : base <:+ scopes.serials) : (scopes.truncate base.length).serials = base := by
  have drop : (scopes.truncate base.length).serials =
      scopes.serials.drop (scopes.serials.length - base.length) := by
    rw [length_serials]
    simp only [serials, truncate, depth, List.map_drop]
  rw [drop, ← List.suffix_iff_eq_drop.mp suffix]

end ScopeStack

namespace Frame

open Act

variable {base : List UInt32}

/-- The same session twice, with its blocks numbered like this. -/
theorem unseen_numbering (numbering : UInt32 × List UInt32) :
    Session.Unseen fun s t => t = s ∧ s.scopes.numbering = numbering where
  resembles := by
    rintro _ s ⟨rfl, _⟩
    exact ⟨rfl, rfl, rfl, rfl, fun _ => rfl⟩
  input := by
    rintro _ s input ⟨rfl, same⟩
    exact ⟨rfl, same⟩
  token := by
    rintro _ s token ⟨rfl, same⟩
    exact ⟨rfl, same⟩
  result := by
    rintro _ s result ⟨rfl, same⟩
    exact ⟨rfl, same⟩
  call := by
    rintro _ s call ⟨rfl, same⟩
    exact ⟨rfl, same⟩
  assign := by
    rintro _ s name value ⟨rfl, same⟩
    exact ⟨rfl, (s.scopes.numbering_assign name value).trans same⟩
  setLocal := by
    rintro _ s name value ⟨rfl, same⟩
    exact ⟨rfl, (s.scopes.numbering_setLocal name value).trans same⟩

/-- A frame that is not that of a block leaves the blocks as they are. -/
theorem act_numbering {f : Frame} {inner : Option Phase} {s : Session} {r : Except Fault Move}
    {scene : Scene} (h : f.act inner s = (r, scene)) (other : ∀ scope, f.construct ≠ .block scope) :
    scene.session.scopes.numbering = s.scopes.numbering ∧ ∀ move, r = .ok move → move.Bare := by
  obtain ⟨_, moves, _, kept⟩ := f.step_blind (unseen_numbering s.scopes.numbering) inner other
    { session := s } { session := s } ⟨rfl, rfl⟩
  rw [show (f.step inner).on { session := s } = _ from h] at kept moves
  exact ⟨kept, moves⟩

theorem held_eq_nil {f : Frame} (none : f.scope? = none) : f.held = [] := by
  rw [held, none]
  rfl

theorem scope?_eq_none {f : Frame} (other : ∀ scope, f.construct ≠ .block scope) :
    f.scope? = none := by
  unfold scope?
  split
  · rename_i scope h
    exact absurd h (other scope)
  · rfl

theorem stepBlock_over {flags : Flags} {scope : Option BlockId} {inner : Option Phase}
    {s : Session} (starts : inner = none → scope = none)
    (stands : s.scopes.serials = scope.toList.map BlockId.serial ++ base) :
    Move.Over base ((stepBlock flags scope inner).on { session := s }).2.session
      ((stepBlock flags scope inner).on { session := s }).1 := by
  have above : base <:+ s.scopes.serials := stands ▸ List.suffix_append _ _
  have leave : ∀ phase, Move.Over base ((leaveBlock scope phase).on { session := s }).2.session
      ((leaveBlock scope phase).on { session := s }).1 := by
    intro phase
    cases scope with
    | none => exact stands
    | some id =>
      cases hclose : s.scopes.close id with
      | error cause =>
        rw [on_leaveBlock_refused hclose]
        exact above
      | ok scopes =>
        rw [on_leaveBlock_closed hclose]
        exact ScopeStack.serials_close hclose stands
  cases inner with
  | none =>
    obtain rfl := starts rfl
    cases executes : flags.executes with
    | false =>
      simp only [stepBlock, executes, Bool.false_eq_true, if_false]
      exact ⟨stands, rfl⟩
    | true =>
      simp only [stepBlock, executes, if_true]
      exact ⟨congrArg (_ :: ·) stands, rfl⟩
  | some phase =>
    cases phase with
    | stmtDone => exact ⟨stands, rfl⟩
    | stmtBlockDone =>
      rw [stepBlock_stmtBlockDone]
      exact leave .stmtBlockDone
    | ret =>
      rw [stepBlock_ret]
      exact leave .ret
    | _ => exact above

/-- One step of a frame, over the blocks that were open when it was begun. -/
theorem act_over {f : Frame} {inner : Option Phase} {s : Session} {r : Except Fault Move}
    {scene : Scene} (h : f.act inner s = (r, scene)) (starts : inner = none → f.scope? = none)
    (stands : s.scopes.serials = f.held ++ base) : Move.Over base scene.session r := by
  by_cases isBlock : ∃ scope, f.construct = .block scope
  · obtain ⟨flags, construct⟩ := f
    obtain ⟨scope, rfl⟩ := isBlock
    have act : (stepBlock flags scope inner).on { session := s } = (r, scene) := h
    have block : Move.Over base ((stepBlock flags scope inner).on { session := s }).2.session
        ((stepBlock flags scope inner).on { session := s }).1 := stepBlock_over starts stands
    rwa [act] at block
  · have other : ∀ scope, f.construct ≠ .block scope := fun scope h => isBlock ⟨scope, h⟩
    obtain ⟨kept, moves⟩ := act_numbering h other
    have same : scene.session.scopes.serials = base := by
      rw [held_eq_nil (scope?_eq_none other)] at stands
      exact (congrArg Prod.snd kept).trans stands
    rcases r with fault | move
    · exact same ▸ List.suffix_refl _
    · have bare := moves move rfl
      cases move with
      | done phase => exact same
      | invoke target args saved => exact same
      | stay self => exact ⟨same, bare⟩
      | push self child =>
        refine ⟨?_, bare.2⟩
        rw [held_eq_nil bare.1]
        exact same

/-- A frame is begun with no block of its own. -/
theorem begun_over {f : Frame} {s : Session} (none : f.scope? = none)
    (stands : s.scopes.serials = base) :
    Move.Over base (f.act .none s).2.session (f.act .none s).1 := by
  refine act_over rfl (fun _ => none) ?_
  rw [held_eq_nil none]
  exact stands

end Frame

namespace Machine

variable {H : Type} {z : Ask} {host : Host H} {base : List UInt32}

/-- The function called leaves the list of open blocks as it found it. -/
def Invocation.LeavesBlocks (host : Host H) (call : Invocation H) : Prop :=
  ∀ answer s' state', Ends host (host.natives call.key call.args) call.session call.state answer
    s' state' → s'.scopes.serials = call.session.scopes.serials

/-- One run decides, as there is no other. -/
theorem Invocation.leavesBlocks_of_run {n : Nat} {call : Invocation H}
    (h : (run host n (⟨call.session, call.state, .program (host.natives call.key call.args) .idle⟩ :
      Config H .unit)).map (·.session.scopes.serials) = some call.session.scopes.serials) :
    call.LeavesBlocks host := by
  rintro answer s' state' ⟨k, ended⟩
  obtain ⟨fin, hfin, same⟩ := Option.map_eq_some_iff.mp h
  have first := (run_mono hfin (Nat.le_max_left n k)).1
  have second := (run_mono ended (Nat.le_max_right n k)).1
  obtain rfl := Option.some.inj (first.symm.trans second)
  exact same

/-- A frame that completes has closed what it and the frames above it opened; one that fails may
leave some of that open, but nothing else closed. -/
theorem Completes.stands {name : String} {out : Except Fault Move × Scene} {state state' : H}
    {r : Except Fault Phase} {s' : Session} {cs : List (Invocation H)}
    (h : Completes host name out state r s' state' cs) (stands : Move.Over base out.2.session out.1)
    (leave : ∀ call ∈ cs, call.LeavesBlocks host) :
    base <:+ s'.scopes.serials ∧ ∀ phase, r = .ok phase → s'.scopes.serials = base := by
  induction h generalizing base with
  | fault => exact ⟨stands, by simp⟩
  | done => exact ⟨stands ▸ List.suffix_refl _, fun _ _ => stands⟩
  | @stay _ scene _ self _ _ _ _ _ ih =>
    obtain ⟨bare, none⟩ := stands
    exact ih (Frame.begun_over none bare) leave
  | limit =>
    refine ⟨?_, by simp⟩
    exact stands.1 ▸ List.suffix_append _ _
  | @pushFault _ scene _ self inner _ _ _ _ _ _ ih =>
    refine ⟨?_, by simp⟩
    have above := (ih (Frame.begun_over stands.2 stands.1) leave).1
    exact (List.suffix_append _ _).trans above
  | @push _ scene _ self inner phase s₁ _ _ _ _ _ _ _ _ _ ih₁ ih₂ =>
    have back := (ih₁ (Frame.begun_over stands.2 stands.1) fun call hcall =>
      leave call (List.mem_append_left _ hcall)).2 phase rfl
    refine ih₂ (Frame.act_over rfl (by simp) back) fun call hcall => ?_
    exact leave call (List.mem_append_right _ hcall)
  | invokeFault ends =>
    have same := leave _ (List.mem_singleton.mpr rfl) _ _ _ ends
    exact ⟨(same.trans stands) ▸ List.suffix_refl _, by simp⟩
  | invoke ends =>
    have same := leave _ (List.mem_singleton.mpr rfl) _ _ _ ends
    exact ⟨(same.trans stands) ▸ List.suffix_refl _, fun _ _ => same.trans stands⟩

/-! ### Statement after statement -/

section Script

variable {input : Input} {saved : Option Call} {outer : Waiting H z .text} {fin : Finished H z}

def nextStatement (base : List UInt32) (input : Input) (saved : Option Call)
    (outer : Waiting H z .text) (s : Session) (state : H) : Config H z :=
  let (session, control) := beginParse s .stmt .execute (.script input saved base.length outer)
  ⟨session, state, control⟩

/-- A statement is begun and ends, with an answer for the script that it is part of. -/
theorem statement_over {n : Nat} {s : Session} {state : H} (direct : outer.inNative = false)
    (stands : s.scopes.serials = base)
    (h : run host n (nextStatement base input saved outer s state) = some fin)
    (leave : ∀ call ∈ calls host n (nextStatement base input saved outer s state),
      call.LeavesBlocks host) :
    ∃ r s' state' m, m ≤ n ∧ base <:+ s'.scopes.serials ∧
      (∀ phase, r = .ok phase → s'.scopes.serials = base) ∧
      run host m ⟨s', state', .deliver .phase r (.script input saved base.length outer)⟩ =
        some fin ∧
      ∀ call ∈ calls host m
        ⟨s', state', .deliver .phase r (.script input saved base.length outer)⟩,
        call.LeavesBlocks host := by
  rcases Session.begins_or_refused s .stmt .execute with ⟨room, frame, hstart⟩ | refused
  · obtain rfl : frame = Frame.newStatement .execute := (Except.ok.inj hstart).symm
    simp only [nextStatement, Session.beginParse_start room hstart] at h leave
    obtain ⟨r, s', state', cs, m, comp, hm, rest, hcs⟩ := completes_of_run direct h
    rw [hcs] at leave
    obtain ⟨above, same⟩ := comp.stands (Frame.begun_over rfl stands) fun call hcall =>
      leave call (List.mem_append_left _ hcall)
    rw [Session.completed_nil] at rest leave
    refine ⟨_, { s' with depth := s.depth }, _, m, Nat.le_of_lt hm, above, ?_, rest,
      fun call hcall => leave call (List.mem_append_right _ hcall)⟩
    intro phase hr
    cases r with
    | error fault => cases hr
    | ok phase' => exact same phase' rfl
  · obtain ⟨fault, _, hbegin⟩ := Session.beginParse_refused (H := H) (z := z) refused
    simp only [nextStatement, hbegin] at h leave
    have above : base <:+ s.scopes.serials := stands ▸ List.suffix_refl _
    exact ⟨_, s, _, n, Nat.le_refl n, above, by simp, h, leave⟩

/-- A script that ends leaves the blocks open that were open when it was begun. -/
theorem script_over {n : Nat} {s : Session} {state : H} (direct : outer.inNative = false)
    (stands : s.scopes.serials = base)
    (h : run host n (nextStatement base input saved outer s state) = some fin)
    (leave : ∀ call ∈ calls host n (nextStatement base input saved outer s state),
      call.LeavesBlocks host) :
    ∃ answer s' state' m, run host m ⟨s', state', .deliver .text answer outer⟩ = some fin ∧
      s'.scopes.serials = base := by
  induction n using Nat.strongRecOn generalizing s state with
  | ind n ih =>
    obtain ⟨r, s₁, state₁, m, hm, above, same, rest, leave₁⟩ := statement_over direct stands h leave
    obtain ⟨m, rfl⟩ := exists_succ_of_run rest
    have cut := ScopeStack.serials_truncate_suffix above
    cases r with
    | error fault => exact ⟨_, _, _, m, rest, cut⟩
    | ok phase =>
      cases phase with
      | stmtDone => exact ih m (by omega) (same _ rfl) rest leave₁
      | eof => exact ⟨_, _, _, m, rest, same _ rfl⟩
      | ret => exact ⟨_, _, _, m, rest, same _ rfl⟩
      | _ => exact ⟨_, _, _, m, rest, cut⟩

end Script

end Machine

namespace Session

open Machine

variable {H : Type} {host : Host H}

theorem eval_serials {fuel : Nat} {s : Session} {state : H} {enclosed : Bool} {script : String}
    {fin : Finished H .text} (h : s.eval host fuel state enclosed script = some fin)
    (leave : ∀ call ∈ s.evalCalls host fuel state enclosed script, call.LeavesBlocks host) :
    fin.session.scopes.serials = s.scopes.serials := by
  cases enclosed with
  | false =>
    have length := s.scopes.length_serials
    simp only [eval, evalCalls, startEval, beginEval, Bool.false_eq_true, if_false,
      ← length] at h leave
    obtain ⟨answer, s', state', m, rest, stands⟩ := script_over rfl rfl h leave
    cases m with
    | zero => simp [run] at rest
    | succ m =>
      obtain rfl := Option.some.inj rest
      exact stands
  | true =>
    have length := s.scopes.openBlock.2.length_serials
    simp only [eval, evalCalls, startEval, beginEval, if_true, ← length] at h leave
    obtain ⟨answer, s', state', m, rest, stands⟩ := script_over rfl rfl h leave
    rcases m with _ | _ | m
    · simp [run] at rest
    · simp [run, step, deliverStep] at rest
    · obtain rfl := Option.some.inj rest
      exact ScopeStack.serials_truncate_opened stands

/-- Evaluation is re-entrant. However it ends, and whatever native functions do meanwhile, the
script, the call and the depth that it interrupts are as they were, and so are the open blocks
unless a native function changes them. -/
theorem eval_reentrant (host : Host H) (fuel : Nat) (s : Session) (state : H) (enclosed : Bool)
    (script : String) (fin : Finished H .text)
    (ends : s.eval host fuel state enclosed script = some fin) :
    fin.session.input = s.input ∧ fin.session.call = s.call ∧ fin.session.depth = s.depth ∧
      ((∀ call ∈ s.evalCalls host fuel state enclosed script, call.LeavesBlocks host) →
        fin.session.scopes.serials = s.scopes.serials) := by
  obtain ⟨level, _⟩ := startEval_level (H := H) s enclosed script .idle (d := s.depth) rfl
  have depth := (run_level level ends).1
  have home := startEval_returnsTo (H := H) .idle s enclosed script rfl
  have place := run_returnsTo home ends
  obtain ⟨input, call⟩ := Prod.mk.inj place
  exact ⟨input, call, depth, eval_serials ends⟩

/-- A function in a block evaluates a script of its own that fails two blocks deep, and passes the
fault on. -/
theorem eval_reentrant_failing :
    let host : Host Unit :=
      { natives := fun _ _ => .eval true "{ var x = 1; { missing; } }" fun
          | .ok _ => .done ()
          | .error fault => .raise fault }
    let s : Session :=
      { id := ⟨0, 1⟩, input := .ofScript "waiting", call := some ⟨"outer", ["1"]⟩, depth := 4,
        scopes := { blocks := [⟨7, {}⟩], serial := 8 },
        functions := Table.insert {} "f" ⟨"f", true⟩ }
    ∃ fin, s.eval host 300 () false "{ var y = 2; f(y); }" = some fin ∧
      fin.answer = .error { cause := .undefinedVariable "missing", line := 1 } ∧
      fin.session.input = s.input ∧ fin.session.call = s.call ∧ fin.session.depth = s.depth ∧
      fin.session.scopes.serials = s.scopes.serials := by
  intro host s
  have ends : (s.eval host 300 () false "{ var y = 2; f(y); }").bind (fun fin =>
      match fin.answer with
      | .ok _ => none
      | .error fault => some fault) =
        some { cause := .undefinedVariable "missing", line := 1 } := by
    decide +kernel
  have leave : ∀ call ∈ s.evalCalls host 300 () false "{ var y = 2; f(y); }",
      (run host 300 (⟨call.session, call.state, .program (host.natives call.key call.args) .idle⟩ :
        Config Unit .unit)).map (·.session.scopes.serials) =
          some call.session.scopes.serials := by
    decide +kernel
  obtain ⟨⟨answer, s', _⟩, executed, failed⟩ := Option.bind_eq_some_iff.mp ends
  obtain ⟨input, call, depth, blocks⟩ :=
    eval_reentrant host 300 s () false "{ var y = 2; f(y); }" _ executed
  have same := blocks fun call hcall => Invocation.leavesBlocks_of_run (leave call hcall)
  cases answer with
  | ok value => cases failed
  | error fault =>
    cases failed
    exact ⟨_, executed, rfl, input, call, depth, same⟩

end Session

end Scriptlet
