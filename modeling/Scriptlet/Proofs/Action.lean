import Scriptlet.Machine.Statement

/-!
Running an action on a scene. Each of the few operations that frames are written in has one
equation here, so that what a frame does can be computed without opening the monad.
-/

namespace Scriptlet.Act

variable {α β : Type}

def on (x : Act α) (scene : Scene) : Except Fault α × Scene := x.run.run scene

@[simp] theorem on_pure (a : α) (scene : Scene) : (pure a : Act α).on scene = (.ok a, scene) := rfl

@[simp] theorem on_bind (x : Act α) (f : α → Act β) (scene : Scene) :
    (x >>= f).on scene =
      match x.on scene with
      | (.ok a, scene) => (f a).on scene
      | (.error fault, scene) => (.error fault, scene) := by
  simp only [on, ExceptT.run_bind, StateT.run_bind]
  rcases x.run.run scene with ⟨fault | a, scene'⟩ <;> rfl

@[simp] theorem on_map (x : Act α) (f : α → β) (scene : Scene) :
    (f <$> x).on scene = ((x.on scene).1.map f, (x.on scene).2) := by
  simp only [on, ExceptT.run_map, StateT.run_map]
  rfl

@[simp] theorem on_ite (p : Prop) [Decidable p] (x y : Act α) (scene : Scene) :
    (if p then x else y).on scene = if p then x.on scene else y.on scene := by
  split <;> rfl

@[simp] theorem on_throw (fault : Fault) (scene : Scene) :
    (throw fault : Act α).on scene = (.error fault, scene) := rfl

@[simp] theorem on_session (scene : Scene) : session.on scene = (.ok scene.session, scene) := rfl

@[simp] theorem on_setSession (s : Session) (scene : Scene) :
    (setSession s).on scene = (.ok (), { scene with session := s }) := rfl

@[simp] theorem on_update (f : Session → Session) (scene : Scene) :
    (update f).on scene = (.ok (), { scene with session := f scene.session }) := rfl

@[simp] theorem on_emit (e : Event) (scene : Scene) :
    (emit e).on scene = (.ok (), { scene with journal := e :: scene.journal }) := rfl

@[simp] theorem on_fail (cause : Fault.Cause) (scene : Scene) :
    (fail cause : Act α).on scene = (.error { cause }, scene) := rfl

@[simp] theorem on_ofExcept (r : Except Fault.Cause α) (scene : Scene) :
    (ofExcept r).on scene = (r.mapError fun cause => { cause }, scene) := by
  cases r <;> rfl

def took (scene : Scene) (phase : Phase) (t : Token) (input : Input) : Scene :=
  { session := { scene.session with input, token := t }, journal := .token phase t :: scene.journal }

theorem on_nextToken {scene : Scene} {phase : Phase} {t : Token} {input : Input}
    (h : scene.session.input.next phase = (t, input)) :
    (nextToken phase).on scene =
      (if t.kind = .error then .error { cause := .malformed t.text, line := input.line } else .ok t,
        took scene phase t input) := by
  simp only [nextToken, readToken, on_bind, on_session, on_setSession, on_emit, on_pure, on_ite,
    on_throw, Session.readToken, h]
  split <;> rfl

/-- A token that the grammar gets is well-formed. -/
theorem nextToken_ok {scene last : Scene} {phase : Phase} {t : Token}
    (h : (nextToken phase).on scene = (.ok t, last)) :
    ∃ input, scene.session.input.next phase = (t, input) ∧ t.kind ≠ .error ∧
      last = took scene phase t input := by
  rcases read : scene.session.input.next phase with ⟨t', input⟩
  rw [on_nextToken read] at h
  obtain ⟨answer, left⟩ := Prod.mk.inj h
  split at answer
  · cases answer
  · rename_i wellFormed
    obtain rfl := Except.ok.inj answer
    exact ⟨input, rfl, wellFormed, left.symm⟩

theorem expect_bind_eq (phase : Phase) (kind : Token.Kind) (f : Unit → Act α) :
    expect phase kind >>= f = nextToken phase >>= fun t =>
      if t.kind ≠ kind then fail (.expected kind t) else f () := by
  rw [expect, bind_assoc]
  refine bind_congr fun t => ?_
  split <;> rfl

/-! ### What actions leave alone -/

def Keeps {γ : Type} (view : Session → γ) (x : Act α) : Prop :=
  ∀ scene, view (x.on scene).2.session = view scene.session

namespace Keeps

variable {γ : Type} {view : Session → γ}

theorem pure (a : α) : (pure a : Act α).Keeps view := fun _ => rfl

theorem fail (cause : Fault.Cause) : (fail cause : Act α).Keeps view := fun _ => rfl

theorem bind {x : Act α} {f : α → Act β} (hx : x.Keeps view) (hf : ∀ a, (f a).Keeps view) :
    (x >>= f).Keeps view := by
  intro scene
  have first := hx scene
  rw [on_bind]
  rcases h : x.on scene with ⟨fault | a, mid⟩
  · rwa [h] at first
  · rw [h] at first
    exact (hf a mid).trans first

theorem ite {p : Prop} [Decidable p] {x y : Act α} (hx : x.Keeps view) (hy : y.Keeps view) :
    (if p then x else y).Keeps view := by
  split
  · exact hx
  · exact hy

theorem session_bind {f : Session → Act β} (h : ∀ s, (f s).Keeps view) :
    (session >>= f).Keeps view :=
  bind (fun _ => rfl) h

theorem ofExcept (r : Except Fault.Cause α) : (ofExcept r).Keeps view := by
  intro scene
  rw [on_ofExcept]

theorem emit (e : Event) : (emit e).Keeps view := fun _ => rfl

theorem update {f : Session → Session} (h : ∀ s, view (f s) = view s) : (update f).Keeps view :=
  fun scene => h scene.session

theorem nextToken (h : ∀ s input token, view { s with input, token } = view s) (phase : Phase) :
    (nextToken phase).Keeps view := by
  intro scene
  rw [on_nextToken rfl]
  exact h scene.session _ _

theorem takeResult (h : ∀ s result, view { s with result } = view s) : takeResult.Keeps view :=
  fun scene => h scene.session ""

theorem readVariable (name : String) : (readVariable name).Keeps view := by
  refine session_bind fun s => ?_
  split
  · exact pure _
  · exact fail _

theorem openBlock (h : ∀ s scopes, view { s with scopes } = view s) : openBlock.Keeps view :=
  fun scene => h scene.session _

theorem closeBlock (h : ∀ s scopes, view { s with scopes } = view s) (id : BlockId) :
    (closeBlock id).Keeps view := by
  intro scene
  simp only [Act.closeBlock, on_bind, on_session, on_ofExcept]
  cases scene.session.scopes.close id with
  | error cause => rfl
  | ok scopes => exact h scene.session scopes

end Keeps

end Scriptlet.Act

namespace Scriptlet.Frame

open Act

def closeCond (flags : Flags) (nl : Bool) (value : String) : Act Move := do
  let t ← nextToken (lookahead nl)
  match t.kind with
  | .logical .and => return joinCond flags nl value .and
  | .logical .or => return joinCond flags nl value .or
  | _ => finishTier flags t value .condDone

theorem stepCond_first (flags : Flags) (nl : Bool) :
    stepCond flags nl .first =
      (if flags.executes then takeResult else pure "") >>= closeCond flags nl := by
  by_cases exe : flags.executes <;> simp only [stepCond, exe, if_true] <;> rfl

theorem stepCond_joining (flags : Flags) (nl : Bool) (left : String) (op : Logical)
    (settled : Bool) :
    stepCond flags nl (.joining left op settled) =
      (if flags.executes then condValue (.joining left op settled) else pure "") >>=
        closeCond flags nl := by
  by_cases exe : flags.executes <;> simp only [stepCond, exe, if_true] <;> rfl

def closeRel (flags : Flags) (nl : Bool) (value : String) : Act Move := do
  let t ← nextToken (lookahead nl)
  match t.kind with
  | .operator op =>
    if op.isRelational then
      return .push ⟨flags, .rel nl (.joining value op)⟩ (newExpr flags nl none)
    else finishTier flags t value .relExpDone
  | _ => finishTier flags t value .relExpDone

theorem stepRel_first (flags : Flags) (nl : Bool) :
    stepRel flags nl .first =
      (if flags.executes then takeResult else pure "") >>= closeRel flags nl := by
  by_cases exe : flags.executes <;> simp only [stepRel, exe, if_true] <;> rfl

theorem stepRel_joining (flags : Flags) (nl : Bool) (left : String) (op : Operator) :
    stepRel flags nl (.joining left op) =
      (if flags.executes then relValue (.joining left op) else pure "") >>=
        closeRel flags nl := by
  by_cases exe : flags.executes <;> simp only [stepRel, exe, if_true] <;> rfl

def closeExpr (flags : Flags) (nl : Bool) (value : String) : Act Move := do
  let t ← nextToken (lookahead nl)
  match t.kind with
  | .operator op =>
    if op.isArithmetic then
      return .stay ⟨flags, .expr nl { stage := .term none, left := some (value, op) }⟩
    else finishTier flags t value .exprDone
  | _ => finishTier flags t value .exprDone

theorem closeTerm_eq (flags : Flags) (nl : Bool) (terms : Terms) (term : String) :
    closeTerm flags nl terms term =
      (if flags.executes then ofExcept (combine terms term) else pure "") >>=
        closeExpr flags nl := by
  by_cases exe : flags.executes <;> simp only [closeTerm, exe, if_true] <;> rfl

theorem openTerm_identifier (flags : Flags) (nl : Bool) (terms : Terms) (name : String) :
    openTerm flags nl terms ⟨.identifier, name⟩ =
      (if flags.executes then readVariable name else pure "") >>= closeTerm flags nl terms := by
  by_cases exe : flags.executes
  · simp only [openTerm, exe, if_true]
  · simp only [openTerm, exe]
    rfl

def afterArgument (flags : Flags) : Act Move := do
  let t ← nextToken .argList
  match t.kind with
  | .comma => return .push ⟨flags, .arguments⟩ (newCond flags false none)
  | .rparen => return .done .argListDone
  | _ => fail (.expectedArgumentEnd t)

theorem stepArguments_some (flags : Flags) (phase : Phase) :
    stepArguments flags (some phase) =
      (if flags.executes then addArgument else pure ()) >>= fun _ => afterArgument flags := by
  by_cases exe : flags.executes <;> simp only [stepArguments, exe, if_true] <;> rfl

def leaveBlock (scope : Option BlockId) (phase : Phase) : Act Move := do
  if let some id := scope then closeBlock id
  return .done phase

theorem stepBlock_stmtBlockDone (flags : Flags) (scope : Option BlockId) :
    stepBlock flags scope (some .stmtBlockDone) = leaveBlock scope .stmtBlockDone := rfl

theorem stepBlock_ret (flags : Flags) (scope : Option BlockId) :
    stepBlock flags scope (some .ret) = leaveBlock scope .ret := rfl

theorem on_leaveBlock_closed {s : Session} {id : BlockId} {scopes : ScopeStack}
    (h : s.scopes.close id = .ok scopes) (phase : Phase) :
    (leaveBlock (some id) phase).on { session := s } =
      (.ok (.done phase), { session := { s with scopes } }) := by
  simp only [leaveBlock, closeBlock, on_bind, on_session, on_ofExcept, h]
  rfl

theorem on_leaveBlock_refused {s : Session} {id : BlockId} {cause : Fault.Cause}
    (h : s.scopes.close id = .error cause) (phase : Phase) :
    (leaveBlock (some id) phase).on { session := s } = (.error { cause }, { session := s }) := by
  simp only [leaveBlock, closeBlock, on_bind, on_session, on_ofExcept, h]
  rfl

end Scriptlet.Frame
