import Scriptlet.Proofs.Completion

/-!
What frames leave alone, and the depth counter. No frame touches the functions, the limits, the
report, the user's mark or the depth of a session, or even looks at the limits; the depth is kept by
the machine, which counts every frame it has on a stack, also on the stacks of parses that wait for
a native function. So a native function, whatever script it runs, gives the session back at the
depth it got it.
-/

namespace Scriptlet

def Session.Worked (s s' : Session) : Prop :=
  ∃ input scopes call result token, s' = { s with input, scopes, call, result, token }

theorem Session.Worked.refl (s : Session) : s.Worked s :=
  ⟨s.input, s.scopes, s.call, s.result, s.token, rfl⟩

theorem Session.Worked.trans {a b c : Session} (h : a.Worked b) (k : b.Worked c) :
    a.Worked c := by
  obtain ⟨_, _, _, _, _, rfl⟩ := h
  obtain ⟨input, scopes, call, result, token, rfl⟩ := k
  exact ⟨input, scopes, call, result, token, rfl⟩

def Scene.under (scene : Scene) (limits : Limits) : Scene :=
  { scene with session := { scene.session with limits } }

namespace Act

variable {α β : Type}

/-- An action that touches no more of a session than frames do, and does the same under any
limits. -/
structure Works (x : Act α) : Prop where
  worked : ∀ scene : Scene, scene.session.Worked (x.on scene).2.session
  under : ∀ (scene : Scene) (limits : Limits),
    x.on (scene.under limits) = ((x.on scene).1, (x.on scene).2.under limits)

namespace Works

theorem pure (a : α) : (pure a : Act α).Works := ⟨fun scene => .refl scene.session, fun _ _ => rfl⟩

theorem bind {x : Act α} {f : α → Act β} (hx : x.Works) (hf : ∀ a, (f a).Works) :
    (x >>= f).Works := by
  constructor
  · intro scene
    have first := hx.worked scene
    rw [on_bind]
    rcases h : x.on scene with ⟨fault | a, scene'⟩
    · rw [h] at first
      exact first
    · rw [h] at first
      exact first.trans ((hf a).worked scene')
  · intro scene limits
    rw [on_bind, on_bind, hx.under]
    rcases x.on scene with ⟨fault | a, scene'⟩
    · rfl
    · exact (hf a).under scene' limits

theorem ite {p : Prop} [Decidable p] {x y : Act α} (hx : x.Works) (hy : y.Works) :
    (if p then x else y).Works := by
  split
  · exact hx
  · exact hy

theorem fail (cause : Fault.Cause) : (fail cause : Act α).Works :=
  ⟨fun scene => .refl scene.session, fun _ _ => rfl⟩

theorem ofExcept (r : Except Fault.Cause α) : (ofExcept r).Works := by
  cases r with
  | ok a => exact pure a
  | error cause => exact fail cause

theorem session_bind {f : Session → Act β}
    (blind : ∀ (s : Session) limits, f { s with limits } = f s) (h : ∀ s, (f s).Works) :
    (session >>= f).Works := by
  constructor
  · intro scene
    exact (h scene.session).worked scene
  · intro scene limits
    have same : f (scene.under limits).session = f scene.session := blind scene.session limits
    rw [on_bind, on_bind, on_session, on_session]
    dsimp only
    rw [same]
    exact (h scene.session).under scene limits

theorem emit (e : Event) : (emit e).Works := ⟨fun scene => .refl scene.session, fun _ _ => rfl⟩

theorem update {f : Session → Session}
    (blind : ∀ (s : Session) limits, f { s with limits } = { f s with limits })
    (h : ∀ s : Session, s.Worked (f s)) : (update f).Works := by
  refine ⟨fun scene => h scene.session, fun scene limits => ?_⟩
  have same : f (scene.under limits).session = { f scene.session with limits } :=
    blind scene.session limits
  rw [on_update, on_update, same]
  rfl

theorem nextToken (phase : Phase) : (nextToken phase).Works := by
  constructor
  · intro scene
    rw [on_nextToken rfl]
    exact ⟨_, _, _, _, _, rfl⟩
  · intro scene limits
    have read : (Act.nextToken phase).on scene = _ := on_nextToken rfl
    have read' : (Act.nextToken phase).on (scene.under limits) = _ := on_nextToken rfl
    rw [read, read']
    rfl

theorem next_bind {phase : Phase} {f : Token → Act β} (h : ∀ t, (f t).Works) :
    (Act.nextToken phase >>= f).Works :=
  bind (nextToken phase) h

theorem unread_bind {t : Token} {f : Unit → Act β} (h : (f ()).Works) :
    (unread t >>= f).Works :=
  bind (update (fun _ _ => rfl) fun _ => ⟨_, _, _, _, _, rfl⟩) fun _ => h

theorem expect_bind {phase : Phase} {kind : Token.Kind} {f : Unit → Act β} (h : (f ()).Works) :
    (expect phase kind >>= f).Works := by
  refine bind (next_bind fun t => ?_) fun _ => h
  exact ite (fail _) (pure ())

theorem takeResult : takeResult.Works := ⟨fun _ => ⟨_, _, _, _, _, rfl⟩, fun _ _ => rfl⟩

theorem setResult (value : String) : (setResult value).Works :=
  update (fun _ _ => rfl) fun _ => ⟨_, _, _, _, _, rfl⟩

theorem openBlock : openBlock.Works := ⟨fun _ => ⟨_, _, _, _, _, rfl⟩, fun _ _ => rfl⟩

theorem closeBlock (id : BlockId) : (closeBlock id).Works := by
  constructor
  · intro scene
    simp only [Act.closeBlock, on_bind, on_session, on_ofExcept]
    cases scene.session.scopes.close id with
    | ok scopes => exact ⟨_, _, _, _, _, rfl⟩
    | error cause => exact .refl scene.session
  · intro scene limits
    simp only [Act.closeBlock, on_bind, on_session, on_ofExcept, Scene.under]
    cases scene.session.scopes.close id with
    | ok scopes => rfl
    | error cause => rfl

theorem readVariable (name : String) : (readVariable name).Works := by
  refine session_bind (fun _ _ => rfl) fun s => ?_
  split
  · exact pure _
  · exact fail _

end Works

end Act

namespace Frame

open Act

variable {flags : Flags}

theorem finishTier_works (t : Token) (value : String) (phase : Phase) :
    (finishTier flags t value phase).Works :=
  .unread_bind (.ite (.bind (.setResult value) fun _ => .pure _) (.pure _))

theorem closeCond_works (nl : Bool) (value : String) : (closeCond flags nl value).Works := by
  refine .next_bind fun t => ?_
  split
  · exact .pure _
  · exact .pure _
  · exact finishTier_works t value .condDone

theorem stepCond_works (nl : Bool) (stage : CondStage) : (stepCond flags nl stage).Works := by
  cases stage with
  | start seed => exact .pure _
  | first =>
    rw [stepCond_first]
    exact .bind (.ite .takeResult (.pure _)) fun value => closeCond_works nl value
  | joining left op settled =>
    rw [stepCond_joining]
    refine .bind (.ite ?_ (.pure _)) fun value => closeCond_works nl value
    exact .ite (.pure _) (.session_bind (fun _ _ => rfl) fun s => .ofExcept _)

theorem closeRel_works (nl : Bool) (value : String) : (closeRel flags nl value).Works := by
  refine .next_bind fun t => ?_
  split
  · exact .ite (.pure _) (finishTier_works t value .relExpDone)
  · exact finishTier_works t value .relExpDone

theorem stepRel_works (nl : Bool) (stage : RelStage) : (stepRel flags nl stage).Works := by
  cases stage with
  | start seed => exact .pure _
  | first =>
    rw [stepRel_first]
    exact .bind (.ite .takeResult (.pure _)) fun value => closeRel_works nl value
  | joining left op =>
    rw [stepRel_joining]
    refine .bind (.ite ?_ (.pure _)) fun value => closeRel_works nl value
    exact .session_bind (fun _ _ => rfl) fun s => .bind (.ofExcept _) fun _ => .pure _

theorem closeExpr_works (nl : Bool) (value : String) : (closeExpr flags nl value).Works := by
  refine .next_bind fun t => ?_
  split
  · exact .ite (.pure _) (finishTier_works t value .exprDone)
  · exact finishTier_works t value .exprDone

theorem closeTerm_works (nl : Bool) (terms : Terms) (term : String) :
    (closeTerm flags nl terms term).Works := by
  rw [closeTerm_eq]
  exact .bind (.ite (.ofExcept _) (.pure _)) fun value => closeExpr_works nl value

theorem openTerm_works (nl : Bool) (terms : Terms) (t : Token) :
    (openTerm flags nl terms t).Works := by
  unfold openTerm
  split
  · exact closeTerm_works nl terms t.text
  · exact .ite (.bind (.readVariable t.text) fun value => closeTerm_works nl terms value)
      (closeTerm_works nl terms "")
  · exact .pure _
  · exact .pure _
  · exact .pure _
  · exact .pure _
  · exact .fail _

theorem innerValue_works : (innerValue flags).Works := .ite .takeResult (.pure _)

theorem stepExpr_works (nl : Bool) (terms : Terms) : (stepExpr flags nl terms).Works := by
  have close : (innerValue flags >>= closeTerm flags nl terms).Works :=
    .bind innerValue_works fun value => closeTerm_works nl terms value
  unfold stepExpr
  split
  · exact openTerm_works nl terms _
  · exact .next_bind fun t => openTerm_works nl terms t
  · exact .expect_bind close
  · exact close

theorem stepCall_works (name : String) (stage : CallStage) :
    (stepCall flags name stage).Works := by
  unfold stepCall
  split
  · refine .expect_bind (.ite ⟨fun scene => ?_, fun scene limits => ?_⟩ (.pure _))
    · rw [on_bind, on_session]
      dsimp only
      split
      · exact ⟨_, _, _, _, _, rfl⟩
      · exact .refl scene.session
    · rw [on_bind, on_bind, on_session, on_session]
      dsimp only [Scene.under]
      split <;> rfl
  · exact .pure _
  · exact .session_bind (fun _ _ => rfl) fun s =>
      .bind (.emit _) fun _ => .bind (.setResult _) fun _ => .pure _

theorem addArgument_works : addArgument.Works :=
  ⟨fun _ => ⟨_, _, _, _, _, rfl⟩, fun _ _ => rfl⟩

theorem stepArguments_works (inner : Option Phase) : (stepArguments flags inner).Works := by
  cases inner with
  | none => exact .next_bind fun t => .ite (.pure _) (.unread_bind (.pure _))
  | some phase =>
    refine .ite (.bind addArgument_works fun _ => .next_bind fun t => ?_) (.next_bind fun t => ?_)
    all_goals
      split
      · exact .pure _
      · exact .pure _
      · exact .fail _

theorem openStatement_works (t : Token) : (openStatement flags t).Works := by
  unfold openStatement
  split
  iterate 9 exact .pure _
  iterate 6 exact .unread_bind (.pure _)
  exact .fail _

theorem terminate_works : terminate.Works := by
  refine .next_bind fun t => ?_
  split
  · exact .pure _
  · exact .pure _
  · exact .unread_bind (.pure _)
  · exact .unread_bind (.pure _)
  · exact .unread_bind (.pure _)
  · exact .fail _

theorem stepStatement_works (stage : StatementStage) (inner : Option Phase) :
    (stepStatement flags stage inner).Works := by
  cases stage with
  | start => exact .next_bind fun t => openStatement_works t
  | forward terminated => exact .ite (.pure _) (.ite terminate_works (.pure _))

theorem stepBlock_works (scope : Option BlockId) (inner : Option Phase) :
    (stepBlock flags scope inner).Works := by
  have leave : ∀ phase, (leaveBlock scope phase).Works := by
    intro phase
    cases scope with
    | none => exact .pure _
    | some id => exact .bind (.closeBlock id) fun _ => .pure _
  cases inner with
  | none => exact .ite (.bind .openBlock fun id => .bind (.emit _) fun _ => .pure _) (.pure _)
  | some phase =>
    cases phase with
    | stmtDone => exact .pure _
    | stmtBlockDone => exact leave .stmtBlockDone
    | ret => exact leave .ret
    | _ => exact .fail _

theorem bodyReturns_works (clause : Fault.Clause) (inner : Option Phase) :
    (bodyReturns clause inner).Works := by
  unfold bodyReturns
  split
  · exact .pure _
  · exact .fail _
  · exact .fail _
  · exact .fail _
  · exact .pure _

theorem stepBranch_works (stage : BranchStage) (inner : Option Phase) :
    (stepBranch flags stage inner).Works := by
  cases stage with
  | opening => exact .expect_bind (.pure _)
  | afterCondition => exact .session_bind (fun _ _ => rfl) fun s => .expect_bind (.pure _)
  | afterThen taken =>
    exact .bind (bodyReturns_works _ inner) fun returns => .ite (.pure _) (.pure _)
  | seekElse taken =>
    refine .next_bind fun t => ?_
    split
    · exact .pure _
    · exact .pure _
    · exact .unread_bind (.pure _)
  | afterElse => exact .bind (bodyReturns_works _ inner) fun returns => .ite (.pure _) (.pure _)

theorem startBody_works (l : Loop) : (startBody flags l).Works :=
  .session_bind (fun _ _ => rfl) fun _ => .pure _

theorem startIncrement_works (l : Loop) : (startIncrement flags l).Works :=
  .session_bind (fun _ _ => rfl) fun _ =>
    .next_bind fun _ => .ite (startBody_works l) (.unread_bind (.pure _))

theorem startCondition_works (l : Loop) : (startCondition flags l).Works :=
  .session_bind (fun _ _ => rfl) fun _ => .next_bind fun _ =>
    .ite (startIncrement_works _) (.unread_bind (.pure _))

theorem resume_bind_works {checkpoint : Option Input} {x : Unit → Act Move} (h : (x ()).Works) :
    (resume checkpoint >>= x).Works := by
  refine .bind ?_ fun _ => h
  cases checkpoint with
  | none => exact .pure _
  | some input => exact .update (fun _ _ => rfl) fun _ => ⟨_, _, _, _, _, rfl⟩

theorem repeatBody_works (l : Loop) : (repeatBody flags l).Works := resume_bind_works (.pure _)

theorem checkCondition_works (l : Loop) : (checkCondition flags l).Works :=
  .ite (resume_bind_works (.pure _)) (repeatBody_works l)

theorem leaveLoop_works (l : Loop) : (leaveLoop l).Works := resume_bind_works (.pure _)

theorem afterBody_works (l : Loop) : (afterBody flags l).Works :=
  .session_bind (fun _ _ => rfl) fun _ => .ite (leaveLoop_works _)
    (.ite (resume_bind_works (.pure _)) (checkCondition_works _))

theorem stepLoop_works (l : Loop) (inner : Option Phase) : (stepLoop flags l inner).Works := by
  unfold stepLoop
  split
  · refine .expect_bind (.next_bind fun t => ?_)
    split
    · exact startCondition_works l
    · exact .pure _
    · exact .unread_bind (.pure _)
  · exact .expect_bind (startCondition_works l)
  · exact .session_bind (fun _ _ => rfl) fun s => .expect_bind (startIncrement_works _)
  · exact .expect_bind (startBody_works l)
  · exact .bind (bodyReturns_works _ inner) fun _ => .ite (.pure _) (afterBody_works l)
  · exact checkCondition_works l
  · exact .session_bind (fun _ _ => rfl) fun s => .ite (repeatBody_works _) (leaveLoop_works l)

theorem bumpVariable_works (op : Operator) (name : String) : (bumpVariable op name).Works :=
  .bind (.readVariable name) fun _ => .bind (.ofExcept _) fun _ =>
    .update (fun _ _ => rfl) fun _ => ⟨_, _, _, _, _, rfl⟩

theorem stepSimple_works (nl : Bool) (stage : SimpleStage) :
    (stepSimple flags nl stage).Works := by
  cases stage with
  | start =>
    refine .next_bind fun t => .ite (.unread_bind (.pure _)) (.next_bind fun behind => ?_)
    split
    · exact .pure _
    · exact .ite (.bind (bumpVariable_works _ _) fun _ => .pure _) (.pure _)
    · exact .unread_bind (.pure _)
  | assigning name =>
    refine .ite (.bind ?_ fun _ => .pure _) (.pure _)
    exact .update (fun _ _ => rfl) fun _ => ⟨_, _, _, _, _, rfl⟩
  | valued => exact .pure _

theorem stepDeclarations_works (nl : Bool) (inner : Option Phase) :
    (stepDeclarations flags nl inner).Works := by
  have declare : (do
      let t ← nextToken .decList
      if t.kind ≠ .identifier then fail (.expectedName t)
      return Move.push ⟨flags, .declarations nl⟩ ⟨flags, .declaration nl t.text⟩ :
      Act Move).Works :=
    .next_bind fun t => .ite (.bind (.fail _) fun _ => .pure _) (.pure _)
  cases inner with
  | none => exact declare
  | some phase => exact .next_bind fun t => .ite declare (.unread_bind (.pure _))

theorem stepDeclaration_works (nl : Bool) (name : String) (inner : Option Phase) :
    (stepDeclaration flags nl name inner).Works := by
  have bound : ∀ value, (do
      if flags.executes then update (·.setLocal name value)
      return Move.done .decDone : Act Move).Works := by
    intro value
    refine .ite (.bind (.update (fun _ _ => rfl) fun s => ?_) fun _ => .pure _) (.pure _)
    exact ⟨_, _, _, _, _, rfl⟩
  cases inner with
  | none => exact .next_bind fun t => .ite (.pure _) (.unread_bind (bound ""))
  | some phase => exact .session_bind (fun _ _ => rfl) fun s => bound s.result

theorem stepReturning_works (inner : Option Phase) : (stepReturning flags inner).Works := by
  have finish : (do
      if flags.executes then setResult ""
      return .done (if flags.executes then .ret else .stmtDone) : Act Move).Works :=
    .ite (.bind (.setResult _) fun _ => .pure _) (.pure _)
  cases inner with
  | some phase => exact .pure _
  | none =>
    refine .next_bind fun t => .unread_bind ?_
    split
    iterate 4 exact finish
    exact .pure _

theorem step_works (f : Frame) (inner : Option Phase) : (f.step inner).Works := by
  obtain ⟨flags, construct⟩ := f
  cases construct with
  | statement stage => exact stepStatement_works stage inner
  | block scope => exact stepBlock_works scope inner
  | branch stage => exact stepBranch_works stage inner
  | loop l => exact stepLoop_works l inner
  | simple nl stage => exact stepSimple_works nl stage
  | declarations nl => exact stepDeclarations_works nl inner
  | declaration nl name => exact stepDeclaration_works nl name inner
  | returning => exact stepReturning_works inner
  | cond nl stage => exact stepCond_works nl stage
  | rel nl stage => exact stepRel_works nl stage
  | expr nl terms => exact stepExpr_works nl terms
  | call name stage => exact stepCall_works name stage
  | arguments => exact stepArguments_works inner

theorem act_works {f : Frame} {inner : Option Phase} {s : Session} {r : Except Fault Move}
    {scene : Scene} (h : f.act inner s = (r, scene)) : s.Worked scene.session := by
  have worked := (step_works f inner).worked { session := s }
  rwa [show (f.step inner).on { session := s } = _ from h] at worked

theorem act_depth (f : Frame) (inner : Option Phase) (s : Session) :
    (f.act inner s).2.session.depth = s.depth ∧ (f.act inner s).2.session.limits = s.limits := by
  obtain ⟨input, scopes, call, result, token, hs⟩ := (step_works f inner).worked { session := s }
  simp only [Frame.act, hs, and_self]

/-- What a frame does, it does under any limits. -/
theorem act_under (f : Frame) (inner : Option Phase) (s : Session) (limits : Limits) :
    f.act inner { s with limits } = ((f.act inner s).1, (f.act inner s).2.under limits) :=
  (step_works f inner).under { session := s } limits

end Frame

namespace Machine

variable {H : Type} {y z a : Ask} {host : Host H} {d : Nat}

def Waiting.Level (d : Nat) {a : Ask} : Waiting H z a → Nat → Prop
  | .idle, n => n = d
  | .call base _ below outer, n => n = base + below.length + 1 ∧ outer.Level d base
  | .script _ _ _ outer, n => outer.Level d n
  | .enclosed _ outer, n => outer.Level d n
  | .afterEval _ outer, n => outer.Level d n
  | .afterParse _ outer, n => outer.Level d n

/-- The depth of the session counts the frames of all parses, over the depth `d` that the run
started from. -/
def Control.Level (d : Nat) : Control H z → Nat → Prop
  | .drive base _ below _ outer, n => n = base + below.length + 1 ∧ outer.Level d base
  | .program _ outer, n => outer.Level d n
  | .deliver _ _ outer, n => outer.Level d n

theorem completed_level {base : Nat} (below : List Frame) {outer : Waiting H z .phase}
    (r : Except Fault Phase) (s : Session) (state : H) (outside : outer.Level d base)
    (inside : ∀ phase, r = .ok phase → s.depth = base + below.length) :
    (completed base below outer r s state).control.Level d
        (completed base below outer r s state).session.depth ∧
      (completed base below outer r s state).session.limits = s.limits := by
  cases r with
  | error fault => exact ⟨outside, rfl⟩
  | ok phase =>
    cases below with
    | nil => exact ⟨outside, rfl⟩
    | cons next rest => exact ⟨⟨inside phase rfl, outside⟩, rfl⟩

theorem beginParse_level (s : Session) (start : Phase) (flags : Flags)
    (outer : Waiting H z .phase) (outside : outer.Level d s.depth) :
    (beginParse s start flags outer).2.Level d (beginParse s start flags outer).1.depth ∧
      (beginParse s start flags outer).1.limits = s.limits := by
  rcases Session.begins_or_refused s start flags with ⟨room, frame, hstart⟩ | refused
  · rw [Session.beginParse_start room hstart outer]
    exact ⟨⟨rfl, outside⟩, rfl⟩
  · obtain ⟨fault, _, hbegin⟩ := Session.beginParse_refused refused
    rw [hbegin outer]
    exact ⟨outside, rfl⟩

theorem startEval_level (s : Session) (enclosed : Bool) (script : String)
    (outer : Waiting H z .text) (outside : outer.Level d s.depth) :
    (startEval s enclosed script outer).2.2.Level d (startEval s enclosed script outer).1.depth ∧
      (startEval s enclosed script outer).1.limits = s.limits := by
  cases enclosed with
  | false =>
    exact beginParse_level
      { s with input := .ofScript script, call := none, result := "", report := none }
      .stmt .execute (.script s.input s.call s.scopes.depth outer) outside
  | true =>
    exact beginParse_level { s with
      scopes := s.scopes.openBlock.2, input := .ofScript script, call := none, result := "",
      report := none } .stmt .execute _ outside

theorem answer_depth (s : Session) (r : Request) :
    (s.answer r).2.1.depth = s.depth ∧ (s.answer r).2.1.limits = s.limits := by
  cases r with
  | closeBlock id =>
    simp only [Session.answer]
    cases s.scopes.close id <;> exact ⟨rfl, rfl⟩
  | _ => exact ⟨rfl, rfl⟩

theorem driveStep_level {s : Session} {state : H} {base : Nat} {top : Frame} {below : List Frame}
    {inner : Option Phase} {outer : Waiting H z .phase} {next : Config H z}
    (depth : s.depth = base + below.length + 1) (outside : outer.Level d base)
    (st : step host ⟨s, state, .drive base top below inner outer⟩ = .inr next) :
    next.control.Level d next.session.depth ∧ next.session.limits = s.limits := by
  rcases hact : top.act inner s with ⟨fault | move, scene⟩
  · obtain ⟨input, scopes, call, result, token, hs⟩ := Frame.act_works hact
    rw [step_fault hact, Sum.inr.injEq] at st
    subst st
    have level := completed_level below (.error fault) scene.session
      (host.absorb scene.journal state) outside (by simp)
    exact ⟨level.1, level.2.trans (by rw [hs])⟩
  · obtain ⟨input, scopes, call, result, token, hs⟩ := Frame.act_works hact
    have kept : scene.session.depth = base + below.length + 1 := by rw [hs]; exact depth
    have limits : scene.session.limits = s.limits := by rw [hs]
    cases move with
    | done phase =>
      rw [step_done hact, Sum.inr.injEq] at st
      subst st
      have level := completed_level below (.ok phase) scene.session.leave
        (host.absorb (.done top.name phase :: scene.journal) state) outside
        (fun _ _ => by simp [kept])
      exact ⟨level.1, level.2.trans limits⟩
    | stay self =>
      rw [step_stay hact, Sum.inr.injEq] at st
      subst st
      exact ⟨⟨kept, outside⟩, limits⟩
    | push self child =>
      by_cases room : scene.session.depth < scene.session.limits.maxDepth
      · rw [step_push hact room, Sum.inr.injEq] at st
        subst st
        exact ⟨⟨congrArg (· + 1) kept, outside⟩, limits⟩
      · rw [step_limit hact (Nat.not_lt.mp room), Sum.inr.injEq] at st
        subst st
        have level := completed_level below (.error { cause := .recursionLimit }) scene.session
          (host.absorb scene.journal state) outside (by simp)
        exact ⟨level.1, level.2.trans limits⟩
    | invoke target args saved =>
      rw [step_invoke hact, Sum.inr.injEq] at st
      subst st
      exact ⟨⟨kept, outside⟩, limits⟩

theorem programStep_level {s : Session} {state : H} {outer : Waiting H z .unit}
    (p : Program H Unit) (outside : outer.Level d s.depth) :
    (programStep s state outer p).2.2.2.Level d (programStep s state outer p).1.depth ∧
      (programStep s state outer p).1.limits = s.limits := by
  cases p with
  | done _ => exact ⟨outside, rfl⟩
  | raise fault => exact ⟨outside, rfl⟩
  | request r next =>
    obtain ⟨depth, limits⟩ := answer_depth s r
    refine ⟨?_, limits⟩
    show outer.Level d (s.answer r).2.1.depth
    rwa [depth]
  | readHost next => exact ⟨outside, rfl⟩
  | writeHost state next => exact ⟨outside, rfl⟩
  | eval enclosed script next =>
    exact startEval_level s enclosed script (.afterEval next outer) outside
  | parse start flags next =>
    exact beginParse_level s start flags (.afterParse next outer) outside

theorem scriptStep_level {s : Session} {input : Input} {saved : Option Call} {blocks : Nat}
    {outer : Waiting H z .text} (r : Except Fault Phase) (outside : outer.Level d s.depth) :
    (scriptStep s input saved blocks r outer).2.2.Level d
        (scriptStep s input saved blocks r outer).1.depth ∧
      (scriptStep s input saved blocks r outer).1.limits = s.limits := by
  cases r with
  | error fault => exact ⟨outside, rfl⟩
  | ok phase =>
    cases phase with
    | stmtDone =>
      exact beginParse_level s .stmt .execute (.script input saved blocks outer) outside
    | _ => exact ⟨outside, rfl⟩

/-- Every step keeps the count, and the limits. -/
theorem step_level {c next : Config H z} (level : c.control.Level d c.session.depth)
    (st : step host c = .inr next) :
    next.control.Level d next.session.depth ∧ next.session.limits = c.session.limits := by
  obtain ⟨s, state, control⟩ := c
  cases control with
  | drive base top below inner outer => exact driveStep_level level.1 level.2 st
  | program p outer =>
    rw [step_program, Sum.inr.injEq] at st
    subst st
    exact programStep_level p level
  | deliver a answer outer =>
    cases outer with
    | idle => simp [step_deliver, deliverStep] at st
    | call base saved below outer =>
      obtain ⟨depth, outside⟩ := level
      cases answer with
      | ok u =>
        rw [step_return_ok, Sum.inr.injEq] at st
        subst st
        exact completed_level below _ _ _ outside fun _ _ => by
          show s.depth - 1 = _
          rw [show s.depth = _ from depth]
          omega
      | error fault =>
        rw [step_return_fault, Sum.inr.injEq] at st
        subst st
        exact completed_level below _ { s with call := saved } _ outside (by simp)
    | script input saved blocks outer =>
      obtain rfl := Sum.inr.inj st
      exact scriptStep_level answer level
    | enclosed blocks outer =>
      obtain rfl := Sum.inr.inj st
      exact ⟨level, rfl⟩
    | afterEval next outer =>
      obtain rfl := Sum.inr.inj st
      exact ⟨level, rfl⟩
    | afterParse next outer =>
      obtain rfl := Sum.inr.inj st
      exact ⟨level, rfl⟩

theorem run_level {n : Nat} {c : Config H z} {fin : Finished H z}
    (level : c.control.Level d c.session.depth) (h : run host n c = some fin) :
    fin.session.depth = d ∧ fin.session.limits = c.session.limits := by
  induction n generalizing c with
  | zero => simp [run] at h
  | succ n ih =>
    cases st : step host c with
    | inr next =>
      obtain ⟨onward, limits⟩ := step_level level st
      rw [← limits]
      exact ih onward (run_step st h)
    | inl fin' =>
      obtain rfl : fin' = fin := by simpa [run, st] using h
      rw [eq_of_finished st] at level ⊢
      exact ⟨level, rfl⟩

/-- A native function gives the session back at the depth it got it, under the same limits. -/
theorem Ends.depth {p : Program H Unit} {s s' : Session} {state state' : H}
    {answer : Except Fault Unit} (h : Ends host p s state answer s' state') :
    s'.depth = s.depth ∧ s'.limits = s.limits := by
  obtain ⟨n, hn⟩ := h
  exact run_level (c := ⟨s, state, .program p .idle⟩) (d := s.depth) rfl hn

/-- A frame that completes is off the stack again, and everything it had on top of it. -/
theorem Completes.depth {name : String} {out : Except Fault Move × Scene} {state state' : H}
    {s' : Session} {cs : List (Invocation H)} {phase : Phase}
    (h : Completes host name out state (.ok phase) s' state' cs) :
    s'.depth = out.2.session.depth - 1 ∧ s'.limits = out.2.session.limits := by
  induction h using Completes.ok_induction with
  | done => exact ⟨rfl, rfl⟩
  | @stay _ scene _ self _ _ _ _ _ ih =>
    obtain ⟨depth, limits⟩ := ih
    have kept := self.act_depth none scene.session
    exact ⟨depth.trans (by rw [kept.1]), limits.trans kept.2⟩
  | @push _ scene _ self inner inside s₁ _ _ _ _ _ _ _ _ _ ih₁ ih₂ =>
    obtain ⟨depth₁, limits₁⟩ := ih₁
    obtain ⟨depth, limits⟩ := ih₂
    have kept₁ := inner.act_depth none scene.session.enter
    have kept := self.act_depth (some inside) s₁
    refine ⟨?_, limits.trans (kept.2.trans (limits₁.trans kept₁.2))⟩
    rw [depth, kept.1, depth₁, kept₁.1]
    rfl
  | invoke ends =>
    obtain ⟨depth, limits⟩ := ends.depth
    exact ⟨congrArg (· - 1) depth, limits⟩

end Machine

end Scriptlet
