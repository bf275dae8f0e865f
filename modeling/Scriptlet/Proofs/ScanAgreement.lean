import Scriptlet.Proofs.Depth

/-!
Scanning stops where executing stops. Every frame has a shadow, the same frame with nothing to
execute and no values in it. As long as no `return` is executed, a run on the shadows takes the same
tokens frame by frame; only a loop parts from its shadow, which leaves behind the first pass over
the body, where the loop comes back to when it is through.
-/

namespace Scriptlet

@[simp] theorem Flags.scan_none : Flags.none.scan = Flags.none := by decide

@[simp] theorem Flags.executeIf_none (b : Bool) : Flags.none.executeIf b = Flags.none := by
  cases b <;> simp [executeIf]

structure Session.Abreast (s t : Session) : Prop where
  input : t.input = s.input
  depth : t.depth = s.depth
  limits : t.limits = s.limits

namespace Session.Abreast

theorem refl (s : Session) : s.Abreast s := ⟨rfl, rfl, rfl⟩

theorem trans {a b c : Session} (h : a.Abreast b) (k : b.Abreast c) : a.Abreast c :=
  ⟨k.input.trans h.input, k.depth.trans h.depth, k.limits.trans h.limits⟩

theorem symm {s t : Session} (h : s.Abreast t) : t.Abreast s :=
  ⟨h.input.symm, h.depth.symm, h.limits.symm⟩

theorem enter {s t : Session} (h : s.Abreast t) : s.enter.Abreast t.enter :=
  ⟨h.input, congrArg (· + 1) h.depth, h.limits⟩

theorem leave {s t : Session} (h : s.Abreast t) : s.leave.Abreast t.leave :=
  ⟨h.input, congrArg (· - 1) h.depth, h.limits⟩

theorem atInput {s t : Session} (h : s.Abreast t) (input : Input) :
    { s with input }.Abreast { t with input } :=
  ⟨rfl, h.depth, h.limits⟩

end Session.Abreast

namespace Frame

/-- The construct as it is read over: what it was executing is forgotten. -/
def Construct.shadow : Construct → Construct
  | .block _ => .block none
  | .branch (.afterThen _) => .branch (.afterThen false)
  | .branch (.seekElse _) => .branch (.seekElse false)
  | .loop l => .loop { l with running := false }
  | .cond nl (.joining _ op _) => .cond nl (.joining "" op false)
  | .rel nl (.joining _ op) => .rel nl (.joining "" op)
  | .expr nl terms => .expr nl { terms with left := terms.left.map fun (_, op) => ("", op) }
  | .call name (.invoking _) => .call name (.invoking none)
  | c => c

def shadow (f : Frame) : Frame := ⟨.none, f.construct.shadow⟩

theorem name_shadow (f : Frame) : f.shadow.name = f.name := by
  obtain ⟨flags, construct⟩ := f
  cases construct with
  | branch stage => cases stage <;> rfl
  | cond nl stage => cases stage <;> rfl
  | rel nl stage => cases stage <;> rfl
  | call name stage => cases stage <;> rfl
  | _ => rfl

def mayReturn (f : Frame) : Bool :=
  match f.construct with
  | .statement _ | .block _ | .branch _ | .loop _ | .returning => true
  | _ => false

def relays (f : Frame) : Bool :=
  match f.construct with
  | .statement (.forward _) | .block _ | .branch (.afterThen _) | .branch .afterElse => true
  | .loop l => l.stage = .afterBody
  | _ => false

theorem mayReturn_of_relays {f : Frame} (h : f.relays = true) : f.mayReturn = true := by
  obtain ⟨flags, construct⟩ := f
  cases construct with
  | statement _ | block _ | branch _ | loop _ | returning => rfl
  | _ => cases h

def Loop.Late (l : Loop) (place : Input) : Prop :=
  l.endAt = some place ∧
    (l.stage = .afterBody ∨ l.stage = .afterIncrement ∨ l.stage = .afterLoopCondition)

def FirstPass (f : Frame) : Prop :=
  match f.construct with
  | .loop l => l.endAt = none ∧ l.stage ≠ .afterIncrement ∧ l.stage ≠ .afterLoopCondition
  | _ => True

end Frame

namespace Move

def shadow : Move → Move
  | .push self inner => .push self.shadow inner.shadow
  | .stay self => .stay self.shadow
  | .done phase => .done phase
  | .invoke _ _ _ => .done .exprDone

/-- What becomes of a frame on its first pass, which a `return` may come through or not: it stays
such a frame, and waits for another one only where it hands the `return` on. -/
def Orderly (returns : Bool) : Move → Prop
  | .push self inner => self.mayReturn = returns ∧ self.FirstPass ∧ inner.FirstPass ∧
      (inner.mayReturn = true → self.relays = true)
  | .stay self => self.mayReturn = returns ∧ self.FirstPass
  | .done phase => phase ≠ .ret
  | .invoke _ _ _ => True

end Move

inductive Shadowed (returns : Bool) : Move → Session → Move → Session → Prop where
  | returned {s move t} : returns = true → Shadowed returns (.done .ret) s move t
  | abreast {move s t} : move.Orderly returns → s.Abreast t →
      Shadowed returns move s move.shadow t
  | loops {flags l child place s t} : returns = true → l.Late place →
      { s with input := place }.Abreast t →
      Shadowed returns (.push ⟨flags, .loop l⟩ child) s (.done .stmtDone) t

namespace Act

variable {α β γ : Type} {R : α → Session → β → Session → Prop}

def Follows (x : Act α) (y : Act β) (R : α → Session → β → Session → Prop) : Prop :=
  ∀ scene scene' : Scene, scene.session.Abreast scene'.session →
    ∀ a last, x.on scene = (.ok a, last) →
      ∃ b last', y.on scene' = (.ok b, last') ∧ R a last.session b last'.session

abbrev Evenly (P : α → β → Prop) (a : α) (s : Session) (b : β) (t : Session) : Prop :=
  P a b ∧ s.Abreast t

abbrev Stands (x : Act α) : Prop := x.Keeps fun s => (s.input, s.depth, s.limits)

theorem Stands.abreast {x : Act α} (h : x.Stands) (scene : Scene) :
    scene.session.Abreast (x.on scene).2.session := by
  obtain ⟨input, rest⟩ := Prod.mk.inj (h scene)
  obtain ⟨depth, limits⟩ := Prod.mk.inj rest
  exact ⟨input, depth, limits⟩

namespace Follows

theorem pure {a : α} {b : β} (h : ∀ s t : Session, s.Abreast t → R a s b t) :
    (pure a : Act α).Follows (pure b : Act β) R := by
  rintro scene scene' abreast _ _ ⟨⟩
  exact ⟨b, scene', rfl, h _ _ abreast⟩

theorem fail (cause : Fault.Cause) (y : Act β) : (fail cause : Act α).Follows y R := by
  rintro scene scene' abreast _ _ ⟨⟩

theorem bind {α' β' : Type} {P : α' → β' → Prop} {x : Act α'} {y : Act β'} {f : α' → Act α}
    {g : β' → Act β} (hx : x.Follows y (Evenly P)) (hf : ∀ a b, P a b → (f a).Follows (g b) R) :
    (x >>= f).Follows (y >>= g) R := by
  intro scene scene' abreast a last h
  rw [on_bind] at h
  rcases hon : x.on scene with ⟨fault | a', mid⟩
  · simp [hon] at h
  · rw [hon] at h
    obtain ⟨b', mid', hon', related, abreast'⟩ := hx scene scene' abreast a' mid hon
    obtain ⟨b, last', hlast, final⟩ := hf a' b' related mid mid' abreast' a last h
    exact ⟨b, last', by rw [on_bind, hon']; exact hlast, final⟩

/-- Something done on the left alone. -/
theorem left_bind {x : Act γ} {f : γ → Act α} {y : Act β} (hx : x.Stands)
    (hf : ∀ c, (f c).Follows y R) : (x >>= f).Follows y R := by
  intro scene scene' abreast a last h
  have stands := hx.abreast scene
  rw [on_bind] at h
  rcases hon : x.on scene with ⟨fault | c, mid⟩
  · simp [hon] at h
  · rw [hon] at h stands
    exact hf c mid scene' (stands.symm.trans abreast) a last h

theorem left_ite {p : Prop} [Decidable p] {x x' : Act α} {y : Act β} (hx : x.Follows y R)
    (hx' : x'.Follows y R) : (if p then x else x').Follows y R := by
  split
  · exact hx
  · exact hx'

/-- The shadow makes the same move. -/
theorem move {returns : Bool} {m m' : Move} (orderly : m.Orderly returns) (same : m' = m.shadow) :
    (Pure.pure m : Act Move).Follows (Pure.pure m') (Shadowed returns) :=
  pure fun _ _ abreast => same ▸ .abreast orderly abreast

theorem session_bind {f : Session → Act α} {g : Session → Act β}
    (h : ∀ s t : Session, s.Abreast t → (f s).Follows (g t) R) :
    (session >>= f).Follows (session >>= g) R := by
  intro scene scene' abreast a last hon
  exact h _ _ abreast scene scene' abreast a last hon

theorem next_bind {phase : Phase} {f : Token → Act α} {g : Token → Act β}
    (h : ∀ t, (f t).Follows (g t) R) :
    (nextToken phase >>= f).Follows (nextToken phase >>= g) R := by
  refine bind (P := Eq) ?_ fun t _ same => same ▸ h t
  intro scene scene' abreast t last hon
  rcases next : scene.session.input.next phase with ⟨t, input⟩
  rw [on_nextToken next] at hon
  rw [on_nextToken (abreast.input ▸ next)]
  split at hon
  · cases (Prod.mk.inj hon).1
  · rename_i valid
    obtain ⟨⟨⟩, rfl⟩ := Prod.mk.inj hon
    rw [if_neg valid]
    exact ⟨_, _, rfl, rfl, rfl, abreast.depth, abreast.limits⟩

theorem unread_bind {t : Token} {f : Unit → Act α} {g : Unit → Act β}
    (h : (f ()).Follows (g ()) R) : (unread t >>= f).Follows (unread t >>= g) R := by
  refine bind (P := fun _ _ => True) ?_ fun _ _ _ => h
  rintro scene scene' abreast _ _ ⟨⟩
  refine ⟨(), _, rfl, trivial, ?_, abreast.depth, abreast.limits⟩
  exact congrArg (Input.unread · t) abreast.input

theorem expect_bind {phase : Phase} {kind : Token.Kind} {f : Unit → Act α} {g : Unit → Act β}
    (h : (f ()).Follows (g ()) R) : (expect phase kind >>= f).Follows (expect phase kind >>= g) R := by
  refine bind (P := fun _ _ => True) (next_bind fun t => ?_) fun _ _ _ => h
  split
  · exact fail _ _
  · exact pure fun _ _ abreast => ⟨trivial, abreast⟩

end Follows

end Act

namespace Frame

open Act

variable {flags : Flags} {returns : Bool}

theorem finishTier_follows (t : Token) (value : String) {phase : Phase} (h : phase ≠ .ret) :
    (finishTier flags t value phase).Follows (finishTier .none t "" phase) (Shadowed returns) :=
  have finish : (pure (.done phase) : Act Move).Follows (pure (.done phase)) (Shadowed returns) :=
    .move (m := .done phase) h rfl
  .unread_bind (.left_ite (.left_bind (.update fun _ => rfl) fun _ => finish) finish)

theorem closeCond_follows (nl : Bool) (value : String) :
    (closeCond flags nl value).Follows (closeCond .none nl "") (Shadowed false) := by
  refine .next_bind fun t => ?_
  split
  · exact .move ⟨rfl, trivial, trivial, by simp [newRel, mayReturn]⟩ rfl
  · exact .move ⟨rfl, trivial, trivial, by simp [newRel, mayReturn]⟩ rfl
  · exact finishTier_follows t value (by simp)

theorem stepCond_follows (nl : Bool) (stage : CondStage) (inner : Option Phase) :
    (stepCond flags nl stage).Follows (Frame.step (shadow ⟨flags, .cond nl stage⟩) inner)
      (Shadowed false) := by
  cases stage with
  | start seed => exact .move ⟨rfl, trivial, trivial, by simp [newRel, mayReturn]⟩ rfl
  | first =>
    show (stepCond flags nl .first).Follows (stepCond .none nl .first) _
    simp only [stepCond_first, Flags.executes_none, Bool.false_eq_true, if_false, pure_bind]
    refine .left_bind (.ite (.takeResult fun _ _ => rfl) (.pure _)) fun value => ?_
    exact closeCond_follows nl value
  | joining left op settled =>
    show (stepCond flags nl (.joining left op settled)).Follows (stepCond .none nl (.joining "" op false)) _
    simp only [stepCond_joining, Flags.executes_none, Bool.false_eq_true, if_false, pure_bind]
    refine .left_bind (.ite ?_ (.pure _)) fun value => closeCond_follows nl value
    exact .ite (.pure _) (.session_bind fun s => .ofExcept _)

theorem closeRel_follows (nl : Bool) (value : String) :
    (closeRel flags nl value).Follows (closeRel .none nl "") (Shadowed false) := by
  refine .next_bind fun t => ?_
  split
  · split
    · exact .move ⟨rfl, trivial, trivial, by simp [newExpr, mayReturn]⟩ rfl
    · exact finishTier_follows t value (by simp)
  · exact finishTier_follows t value (by simp)

theorem stepRel_follows (nl : Bool) (stage : RelStage) (inner : Option Phase) :
    (stepRel flags nl stage).Follows (Frame.step (shadow ⟨flags, .rel nl stage⟩) inner)
      (Shadowed false) := by
  cases stage with
  | start seed => exact .move ⟨rfl, trivial, trivial, by simp [newExpr, mayReturn]⟩ rfl
  | first =>
    show (stepRel flags nl .first).Follows (stepRel .none nl .first) _
    simp only [stepRel_first, Flags.executes_none, Bool.false_eq_true, if_false, pure_bind]
    refine .left_bind (.ite (.takeResult fun _ _ => rfl) (.pure _)) fun value => ?_
    exact closeRel_follows nl value
  | joining left op =>
    show (stepRel flags nl (.joining left op)).Follows (stepRel .none nl (.joining "" op)) _
    simp only [stepRel_joining, Flags.executes_none, Bool.false_eq_true, if_false, pure_bind]
    refine .left_bind (.ite ?_ (.pure _)) fun value => closeRel_follows nl value
    exact .session_bind fun s => .bind (.ofExcept _) fun _ => .pure _

theorem closeExpr_follows (nl : Bool) (value : String) :
    (closeExpr flags nl value).Follows (closeExpr .none nl "") (Shadowed false) := by
  refine .next_bind fun t => ?_
  split
  · split
    · exact .move ⟨rfl, trivial⟩ rfl
    · exact finishTier_follows t value (by simp)
  · exact finishTier_follows t value (by simp)

theorem closeTerm_follows (nl : Bool) (terms terms' : Terms) (term term' : String) :
    (closeTerm flags nl terms term).Follows (closeTerm .none nl terms' term')
      (Shadowed false) := by
  simp only [closeTerm_eq, Flags.executes_none, Bool.false_eq_true, if_false, pure_bind]
  exact .left_bind (.ite (.ofExcept _) (.pure _)) fun value => closeExpr_follows nl value

theorem openTerm_follows (nl : Bool) (terms : Terms) (t : Token) :
    (openTerm flags nl terms t).Follows
      (openTerm .none nl { terms with left := terms.left.map fun (_, op) => ("", op) } t)
      (Shadowed false) := by
  unfold openTerm
  simp only [Flags.executes_none, Bool.false_eq_true, if_false, pure_bind]
  split
  · exact closeTerm_follows nl terms _ t.text t.text
  · exact .left_ite (.left_bind (.readVariable t.text) fun value =>
      closeTerm_follows nl terms _ value "") (closeTerm_follows nl terms _ "" "")
  · exact .move ⟨rfl, trivial, trivial, by simp [mayReturn]⟩ rfl
  · exact .move ⟨rfl, trivial, trivial, by simp [newCond, mayReturn]⟩ rfl
  · exact .move ⟨rfl, trivial⟩ rfl
  · exact .move ⟨rfl, trivial⟩ rfl
  · exact .fail _ _

theorem stepExpr_follows (nl : Bool) (terms : Terms) :
    (stepExpr flags nl terms).Follows
      (stepExpr .none nl { terms with left := terms.left.map fun (_, op) => ("", op) })
      (Shadowed false) := by
  have close : (innerValue flags >>= closeTerm flags nl terms).Follows
      (innerValue .none >>= closeTerm .none nl
        { terms with left := terms.left.map fun (_, op) => ("", op) }) (Shadowed false) := by
    simp only [innerValue, Flags.executes_none, Bool.false_eq_true, if_false, pure_bind]
    exact .left_bind (.ite (.takeResult fun _ _ => rfl) (.pure _)) fun value =>
      closeTerm_follows nl terms _ value ""
  unfold stepExpr
  dsimp only
  split
  · exact openTerm_follows nl terms _
  · exact .next_bind fun t => openTerm_follows nl terms t
  · exact .expect_bind close
  · exact close

theorem stepCall_follows (name : String) (stage : CallStage) (inner : Option Phase) :
    (stepCall flags name stage).Follows (Frame.step (shadow ⟨flags, .call name stage⟩) inner)
      (Shadowed false) := by
  cases stage with
  | opening =>
    show (stepCall flags name .opening).Follows (stepCall .none name .opening) _
    refine .expect_bind ?_
    have more : ∀ target, (pure (.push ⟨flags, .call name (.invoking target)⟩ ⟨flags, .arguments⟩) :
        Act Move).Follows (pure (.push ⟨.none, .call name (.invoking none)⟩ ⟨.none, .arguments⟩))
        (Shadowed false) :=
      fun target => .move ⟨rfl, trivial, trivial, by simp [mayReturn]⟩ rfl
    simp only [Flags.executes_none, Bool.false_eq_true, if_false, pure_bind]
    refine .left_ite (fun scene scene' abreast a last h => ?_) (more none)
    rw [on_bind, on_session] at h
    dsimp only at h
    split at h
    · obtain ⟨⟨⟩, rfl⟩ := Prod.mk.inj h
      exact more _ { scene with session := { scene.session with call := some { name } } } scene'
        ⟨abreast.input, abreast.depth, abreast.limits⟩ _ _ rfl
    · cases (Prod.mk.inj h).1
  | invoking target =>
    cases target with
    | none => exact .move (m := .done .exprDone) (by simp [Move.Orderly]) rfl
    | some found =>
      obtain ⟨callable, saved⟩ := found
      refine .left_bind (fun _ => rfl) fun s => .left_bind (.emit _) fun _ =>
        .left_bind (.update fun _ => rfl) fun _ => ?_
      exact .move (m := .invoke callable _ saved) trivial rfl

theorem addArgument_keeps : addArgument.Stands :=
  .bind (.takeResult fun _ _ => rfl) fun _ => .update fun _ => rfl

theorem stepArguments_follows (inner : Option Phase) :
    (stepArguments flags inner).Follows (stepArguments .none inner) (Shadowed false) := by
  have argument : (pure (.push ⟨flags, .arguments⟩ (newCond flags false none)) : Act Move).Follows
      (pure (.push ⟨.none, .arguments⟩ (newCond .none false none))) (Shadowed false) :=
    .move ⟨rfl, trivial, trivial, by simp [newCond, mayReturn]⟩ rfl
  have ends : (pure (.done .argListDone) : Act Move).Follows (pure (.done .argListDone))
      (Shadowed false) := .move (m := .done .argListDone) (by simp [Move.Orderly]) rfl
  cases inner with
  | none =>
    refine .next_bind fun t => ?_
    split
    · exact ends
    · exact .unread_bind argument
  | some phase =>
    simp only [stepArguments, Flags.executes_none, Bool.false_eq_true, if_false]
    refine .left_ite (.left_bind addArgument_keeps fun _ => .next_bind fun t => ?_)
      (.next_bind fun t => ?_)
    all_goals
      split
      · exact argument
      · exact ends
      · exact .fail _ _

theorem openStatement_follows (t : Token) :
    (openStatement flags t).Follows (openStatement .none t) (Shadowed true) := by
  have ends : ∀ phase : Phase, phase ≠ .ret →
      (pure (.done phase) : Act Move).Follows (pure (.done phase)) (Shadowed true) :=
    fun phase h => .move (m := .done phase) h rfl
  have forward : ∀ inner terminated, FirstPass ⟨flags, inner⟩ →
      (pure (.push ⟨flags, .statement (.forward terminated)⟩ ⟨flags, inner⟩) : Act Move).Follows
        (pure (.push ⟨.none, .statement (.forward terminated)⟩ ⟨.none, inner.shadow⟩))
        (Shadowed true) :=
    fun inner terminated first => .move ⟨rfl, trivial, first, fun _ => rfl⟩ rfl
  unfold openStatement
  dsimp only
  split
  · exact .move (m := .stay _) ⟨rfl, trivial⟩ rfl
  · exact ends .stmtDone (by simp)
  · exact ends .eof (by simp)
  · exact ends .stmtBlockDone (by simp)
  · exact forward (.block none) false trivial
  · exact forward (.branch .opening) false trivial
  · exact forward (.loop {}) false ⟨rfl, by simp, by simp⟩
  · exact forward (.declarations true) true trivial
  · exact forward .returning true trivial
  iterate 6 exact .unread_bind (forward (.simple true .start) true trivial)
  exact .fail _ _

theorem terminate_follows : terminate.Follows terminate (Shadowed true) := by
  have ends : (pure (.done .stmtDone) : Act Move).Follows (pure (.done .stmtDone))
      (Shadowed true) := .move (m := .done .stmtDone) (by simp [Move.Orderly]) rfl
  refine .next_bind fun t => ?_
  split
  · exact ends
  · exact ends
  · exact .unread_bind ends
  · exact .unread_bind ends
  · exact .unread_bind ends
  · exact .fail _ _

theorem stepStatement_follows (stage : StatementStage) {inner : Option Phase}
    (h : inner ≠ some .ret) :
    (stepStatement flags stage inner).Follows (stepStatement .none stage inner)
      (Shadowed true) := by
  cases stage with
  | start => exact .next_bind fun t => openStatement_follows t
  | forward terminated =>
    simp only [stepStatement, if_neg h]
    split
    · exact terminate_follows
    · exact .move (m := .done .stmtDone) (by simp [Move.Orderly]) rfl

theorem stepBlock_follows (scope : Option BlockId) {inner : Option Phase} (h : inner ≠ some .ret) :
    (stepBlock flags scope inner).Follows (stepBlock .none none inner) (Shadowed true) := by
  have again : ∀ scope, (pure (.push ⟨flags, .block scope⟩ (newStatement flags)) : Act Move).Follows
      (pure (.push ⟨.none, .block none⟩ (newStatement .none))) (Shadowed true) :=
    fun scope => .move ⟨rfl, trivial, trivial, fun _ => rfl⟩ rfl
  cases inner with
  | none =>
    simp only [stepBlock, Flags.executes_none, Bool.false_eq_true, if_false]
    refine .left_ite (.left_bind (.openBlock fun _ _ => rfl) fun id => ?_) (again none)
    exact .left_bind (.emit _) fun _ => again _
  | some phase =>
    cases phase with
    | stmtDone => exact again scope
    | stmtBlockDone =>
      have ends : (pure (.done .stmtBlockDone) : Act Move).Follows (pure (.done .stmtBlockDone))
          (Shadowed true) := .move (m := .done .stmtBlockDone) (by simp [Move.Orderly]) rfl
      cases scope with
      | none => exact ends
      | some id => exact .left_bind (.closeBlock (fun _ _ => rfl) id) fun _ => ends
    | ret => exact absurd rfl h
    | _ => exact .fail _ _

theorem bodyReturns_follows (clause : Fault.Clause) {inner : Option Phase}
    (h : inner ≠ some .ret) :
    (bodyReturns clause inner).Follows (bodyReturns clause inner)
      (Evenly fun a b => a = false ∧ b = false) := by
  unfold bodyReturns
  split
  · exact absurd rfl h
  · exact .fail _ _
  · exact .fail _ _
  · exact .fail _ _
  · exact .pure fun _ _ abreast => ⟨⟨rfl, rfl⟩, abreast⟩

theorem stepBranch_follows (stage : BranchStage) {inner : Option Phase} (h : inner ≠ some .ret) :
    (stepBranch flags stage inner).Follows (Frame.step (shadow ⟨flags, .branch stage⟩) inner)
      (Shadowed true) := by
  have ends : (pure (.done .stmtDone) : Act Move).Follows (pure (.done .stmtDone))
      (Shadowed true) := .move (m := .done .stmtDone) (by simp [Move.Orderly]) rfl
  cases stage with
  | opening => exact .expect_bind (.move ⟨rfl, trivial, trivial, by simp [newCond, mayReturn]⟩ rfl)
  | afterCondition =>
    show (stepBranch flags .afterCondition inner).Follows (stepBranch .none .afterCondition inner) _
    refine .session_bind fun s t abreast => .expect_bind ?_
    simp only [Flags.executes_none, Bool.false_and, Flags.executeIf_none]
    exact .move ⟨rfl, trivial, trivial, fun _ => rfl⟩ rfl
  | afterThen taken =>
    refine .bind (bodyReturns_follows _ h) ?_
    rintro _ _ ⟨rfl, rfl⟩
    exact .move (m := .stay _) ⟨rfl, trivial⟩ rfl
  | seekElse taken =>
    refine .next_bind fun t => ?_
    split
    · exact .move (m := .stay _) ⟨rfl, trivial⟩ rfl
    · exact .move ⟨rfl, trivial, trivial, fun _ => rfl⟩ rfl
    · exact .unread_bind ends
  | afterElse =>
    refine .bind (bodyReturns_follows _ h) ?_
    rintro _ _ ⟨rfl, rfl⟩
    exact ends

/-! Loops -/

theorem startBody_follows {l : Loop} (fresh : l.endAt = none) :
    (startBody flags l).Follows (startBody .none { l with running := false }) (Shadowed true) := by
  refine .session_bind fun s t abreast => ?_
  simp only [Flags.executeIf_none, abreast.input]
  exact .move ⟨rfl, ⟨fresh, by simp, by simp⟩, trivial, fun _ => rfl⟩ rfl

theorem startIncrement_follows {l : Loop} (fresh : l.endAt = none) :
    (startIncrement flags l).Follows (startIncrement .none { l with running := false })
      (Shadowed true) := by
  refine .session_bind fun s t abreast => .next_bind fun next => ?_
  split
  · exact startBody_follows fresh
  · refine .unread_bind ?_
    simp only [Flags.scan_none, abreast.input]
    exact .move ⟨rfl, ⟨fresh, by simp, by simp⟩, trivial, by simp [newSimple, mayReturn]⟩ rfl

theorem startCondition_follows {l : Loop} (fresh : l.endAt = none) :
    (startCondition flags l).Follows (startCondition .none { l with running := false })
      (Shadowed true) := by
  refine .session_bind fun s t abreast => .next_bind fun next => ?_
  split
  · exact startIncrement_follows (l := { l with running := flags.executes }) fresh
  · refine .unread_bind ?_
    simp only [abreast.input]
    exact .move ⟨rfl, ⟨fresh, by simp, by simp⟩, trivial, by simp [newCond, mayReturn]⟩ rfl

theorem on_resume (checkpoint : Option Input) (scene : Scene) :
    (resume checkpoint).on scene = (.ok (), { scene with
      session := { scene.session with input := checkpoint.getD scene.session.input } }) := by
  cases checkpoint <;> rfl

theorem on_leaveLoop {l : Loop} {place : Input} (ends : l.endAt = some place) (scene : Scene) :
    (leaveLoop l).on scene =
      (.ok (.done .stmtDone), { scene with session := { scene.session with input := place } }) := by
  simp only [leaveLoop, ends]
  rfl

/-- The loop goes on from one of its checkpoints while its shadow is through. -/
theorem goOn_follows {checkpoint : Option Input} {l l' : Loop} {child : Frame} {place : Input}
    (late : l.Late place) (same : l'.endAt = some place) :
    (resume checkpoint >>= fun _ => pure (.push ⟨flags, .loop l⟩ child)).Follows (leaveLoop l')
      (Shadowed true) := by
  intro scene scene' abreast move last h
  rw [on_bind, on_resume] at h
  obtain ⟨⟨⟩, rfl⟩ := Prod.mk.inj h
  exact ⟨_, _, on_leaveLoop same scene', .loops rfl late (abreast.atInput place)⟩

/-- Behind the first pass over its body a loop ends here, if not at once then later. -/
theorem afterBody_follows {l : Loop} (fresh : l.endAt = none) :
    (afterBody flags l).Follows (afterBody .none { l with running := false })
      (Shadowed true) := by
  refine .session_bind fun s t abreast => ?_
  simp only [fresh, Option.none_or, Bool.not_false, if_true]
  have same : some t.input = some s.input := congrArg some abreast.input
  split
  · intro scene scene' abreast move last h
    rw [on_leaveLoop rfl] at h
    obtain ⟨⟨⟩, rfl⟩ := Prod.mk.inj h
    have orderly : (Move.done .stmtDone).Orderly true := by simp [Move.Orderly]
    exact ⟨_, _, on_leaveLoop same scene', .abreast orderly (abreast.atInput s.input)⟩
  · split
    · exact goOn_follows ⟨rfl, .inr (.inl rfl)⟩ same
    · unfold checkCondition
      split
      · exact goOn_follows ⟨rfl, .inr (.inr rfl)⟩ same
      · exact goOn_follows ⟨rfl, .inl rfl⟩ same

theorem stepLoop_follows {l : Loop} {inner : Option Phase} (first : FirstPass ⟨flags, .loop l⟩)
    (h : inner ≠ some .ret) :
    (stepLoop flags l inner).Follows (stepLoop .none { l with running := false } inner)
      (Shadowed true) := by
  obtain ⟨fresh, increment, condition⟩ := first
  unfold stepLoop
  dsimp only
  split
  · refine .expect_bind (.next_bind fun t => ?_)
    split
    · exact startCondition_follows fresh
    · exact .move ⟨rfl, ⟨fresh, by simp, by simp⟩, trivial, by simp [mayReturn]⟩ rfl
    · refine .unread_bind ?_
      exact .move ⟨rfl, ⟨fresh, by simp, by simp⟩, trivial, by simp [newSimple, mayReturn]⟩ rfl
  · exact .expect_bind (startCondition_follows fresh)
  · refine .session_bind fun s t abreast => .expect_bind ?_
    exact startIncrement_follows
      (l := { l with running := flags.executes && Value.truthy s.result }) fresh
  · exact .expect_bind (startBody_follows fresh)
  · refine .bind (bodyReturns_follows _ h) ?_
    rintro _ _ ⟨rfl, rfl⟩
    exact afterBody_follows fresh
  · rename_i stage
    exact absurd stage increment
  · rename_i stage
    exact absurd stage condition

/-! Simple statements, declarations and `return` -/

theorem bumpVariable_keeps (op : Operator) (name : String) : (bumpVariable op name).Stands :=
  .bind (.readVariable name) fun _ => .bind (.ofExcept _) fun _ => .update fun _ => rfl

theorem stepSimple_follows (nl : Bool) (stage : SimpleStage) :
    (stepSimple flags nl stage).Follows (stepSimple .none nl stage) (Shadowed false) := by
  have ends : (pure (.done .exprDone) : Act Move).Follows (pure (.done .exprDone))
      (Shadowed false) := .move (m := .done .exprDone) (by simp [Move.Orderly]) rfl
  have value : ∀ stage seed,
      (pure (.push ⟨flags, .simple nl stage⟩ (newCond flags nl seed)) : Act Move).Follows
        (pure (.push ⟨.none, .simple nl stage⟩ (newCond .none nl seed))) (Shadowed false) :=
    fun stage seed => .move ⟨rfl, trivial, trivial, by simp [newCond, mayReturn]⟩ rfl
  cases stage with
  | start =>
    refine .next_bind fun t => ?_
    split
    · exact .unread_bind (value .valued none)
    · refine .next_bind fun behind => ?_
      split
      · exact value (.assigning t.text) none
      · exact .left_ite (.left_bind (bumpVariable_keeps _ _) fun _ => ends) ends
      · exact .unread_bind (value .valued (some t))
  | assigning name =>
    exact .left_ite (.left_bind (.update fun _ => rfl) fun _ => ends) ends
  | valued => exact ends

theorem stepDeclarations_follows (nl : Bool) (inner : Option Phase) :
    (stepDeclarations flags nl inner).Follows (stepDeclarations .none nl inner)
      (Shadowed false) := by
  have declare : (do
      let t ← nextToken .decList
      if t.kind ≠ .identifier then fail (.expectedName t)
      return Move.push ⟨flags, .declarations nl⟩ ⟨flags, .declaration nl t.text⟩ :
      Act Move).Follows (do
      let t ← nextToken .decList
      if t.kind ≠ .identifier then fail (.expectedName t)
      return Move.push ⟨.none, .declarations nl⟩ ⟨.none, .declaration nl t.text⟩)
      (Shadowed false) := by
    refine .next_bind fun t => ?_
    split
    · exact .bind (P := fun _ _ => False) (.fail _ _) fun _ _ => False.elim
    · exact .move ⟨rfl, trivial, trivial, by simp [mayReturn]⟩ rfl
  cases inner with
  | none => exact declare
  | some phase =>
    refine .next_bind fun t => ?_
    split
    · exact declare
    · exact .unread_bind (.move (m := .done .decListDone) (by simp [Move.Orderly]) rfl)

theorem stepDeclaration_follows (nl : Bool) (name : String) (inner : Option Phase) :
    (stepDeclaration flags nl name inner).Follows (stepDeclaration .none nl name inner)
      (Shadowed false) := by
  have ends : (pure (.done .decDone) : Act Move).Follows (pure (.done .decDone))
      (Shadowed false) := .move (m := .done .decDone) (by simp [Move.Orderly]) rfl
  have bound : ∀ value, (do
      if flags.executes then update (·.setLocal name value)
      return Move.done .decDone : Act Move).Follows (pure (.done .decDone)) (Shadowed false) :=
    fun value => .left_ite (.left_bind (.update fun _ => rfl) fun _ => ends) ends
  simp only [stepDeclaration, Flags.executes_none, Bool.false_eq_true, if_false]
  cases inner with
  | none =>
    refine .next_bind fun t => ?_
    split
    · exact .move ⟨rfl, trivial, trivial, by simp [newCond, mayReturn]⟩ rfl
    · exact .unread_bind (bound "")
  | some phase => exact .session_bind fun s t abreast => bound s.result

theorem stepReturning_follows (inner : Option Phase) :
    (stepReturning flags inner).Follows (stepReturning .none inner) (Shadowed true) := by
  have finish : (pure (.done (if flags.executes then .ret else .stmtDone)) : Act Move).Follows
      (pure (.done .stmtDone)) (Shadowed true) := by
    split
    · exact .pure fun _ _ _ => .returned rfl
    · exact .move (m := .done .stmtDone) (by simp [Move.Orderly]) rfl
  simp only [stepReturning, Flags.executes_none, Bool.false_eq_true, if_false]
  cases inner with
  | some phase => exact finish
  | none =>
    refine .next_bind fun t => .unread_bind ?_
    split
    iterate 4 exact .left_ite (.left_bind (.update fun _ => rfl) fun _ => finish) finish
    exact .move ⟨rfl, trivial, trivial, by simp [newCond, mayReturn]⟩ rfl

/-- One step: the shadow makes the same move, or the loop has come to the end of its body. -/
theorem step_follows {f : Frame} {inner : Option Phase} (first : f.FirstPass)
    (h : inner ≠ some .ret) :
    (f.step inner).Follows (f.shadow.step inner) (Shadowed f.mayReturn) := by
  obtain ⟨flags, construct⟩ := f
  cases construct with
  | statement stage => exact stepStatement_follows stage h
  | block scope => exact stepBlock_follows scope h
  | branch stage => exact stepBranch_follows stage h
  | loop l => exact stepLoop_follows first h
  | simple nl stage => exact stepSimple_follows nl stage
  | declarations nl => exact stepDeclarations_follows nl inner
  | declaration nl name => exact stepDeclaration_follows nl name inner
  | returning => exact stepReturning_follows inner
  | cond nl stage => exact stepCond_follows nl stage inner
  | rel nl stage => exact stepRel_follows nl stage inner
  | expr nl terms => exact stepExpr_follows nl terms
  | call name stage => exact stepCall_follows name stage inner
  | arguments => exact stepArguments_follows inner

theorem act_follows {f : Frame} {inner : Option Phase} {s t : Session} {move : Move} {scene : Scene}
    (first : f.FirstPass) (hinner : inner ≠ some .ret) (abreast : s.Abreast t)
    (h : f.act inner s = (.ok move, scene)) :
    ∃ move' scene', f.shadow.act inner t = (.ok move', scene') ∧
      Shadowed f.mayReturn move scene.session move' scene'.session :=
  step_follows first hinner { session := s } { session := t } abreast move scene h

/-- A frame that waits for one that may return hands the `return` on, unless it fails. -/
theorem act_relays {f : Frame} (h : f.relays = true) (s : Session) :
    (∃ scene, f.act (some .ret) s = (.ok (.done .ret), scene)) ∨
      ∃ fault scene, f.act (some .ret) s = (.error fault, scene) := by
  obtain ⟨flags, construct⟩ := f
  cases construct with
  | statement stage =>
    cases stage with
    | start => cases h
    | forward terminated => exact .inl ⟨_, rfl⟩
  | block scope =>
    cases scope with
    | none => exact .inl ⟨_, rfl⟩
    | some id =>
      cases hclose : s.scopes.close id with
      | ok scopes =>
        refine .inl ⟨{ session := { s with scopes } }, ?_⟩
        simp [Frame.act, Frame.step, stepBlock, closeBlock, hclose]
        rfl
      | error cause =>
        refine .inr ⟨{ cause }, { session := s }, ?_⟩
        simp [Frame.act, Frame.step, stepBlock, closeBlock, hclose]
        rfl
  | branch stage =>
    cases stage with
    | afterThen taken => exact .inl ⟨_, rfl⟩
    | afterElse => exact .inl ⟨_, rfl⟩
    | _ => cases h
  | loop l =>
    have stage : l.stage = .afterBody := by simpa [relays] using h
    refine .inl ⟨{ session := s }, ?_⟩
    simp [Frame.act, Frame.step, stepLoop, stage, bodyReturns]
  | _ => cases h

section Late

variable {l : Loop} {place : Input} {move : Move} {scene last : Scene}

theorem goOn_late {checkpoint : Option Input} {child : Frame}
    (h : (resume checkpoint >>= fun _ => pure (.push ⟨flags, .loop l⟩ child)).on scene =
      (.ok move, last)) (late : l.Late place) :
    ∃ l' child, move = .push ⟨flags, .loop l'⟩ child ∧ l'.Late place := by
  rw [on_bind, on_resume] at h
  obtain ⟨⟨⟩, -⟩ := Prod.mk.inj h
  exact ⟨l, child, rfl, late⟩

theorem checkCondition_late (h : (checkCondition flags l).on scene = (.ok move, last))
    (ends : l.endAt = some place) :
    ∃ l' child, move = .push ⟨flags, .loop l'⟩ child ∧ l'.Late place := by
  unfold checkCondition at h
  split at h
  · exact goOn_late h ⟨ends, .inr (.inr rfl)⟩
  · exact goOn_late h ⟨ends, .inl rfl⟩

theorem leaveLoop_late (h : (leaveLoop l).on scene = (.ok move, last))
    (ends : l.endAt = some place) : move = .done .stmtDone ∧ last.session.input = place := by
  rw [on_leaveLoop ends] at h
  obtain ⟨⟨⟩, rfl⟩ := Prod.mk.inj h
  exact ⟨rfl, rfl⟩

theorem afterBody_late (h : (afterBody flags l).on scene = (.ok move, last))
    (ends : l.endAt = some place) :
    (move = .done .stmtDone ∧ last.session.input = place) ∨
      ∃ l' child, move = .push ⟨flags, .loop l'⟩ child ∧ l'.Late place := by
  simp only [afterBody, on_bind, on_session, ends, Option.some_or] at h
  split at h
  · exact .inl (leaveLoop_late h rfl)
  · split at h
    · exact .inr (goOn_late h ⟨rfl, .inr (.inl rfl)⟩)
    · exact .inr (checkCondition_late h rfl)

/-- What a loop does once it has been through its body. -/
theorem act_late {inner : Option Phase} {s : Session} (late : l.Late place)
    (h : (⟨flags, .loop l⟩ : Frame).act inner s = (.ok move, last)) :
    move = .done .ret ∨ (move = .done .stmtDone ∧ last.session.input = place) ∨
      ∃ l' child, move = .push ⟨flags, .loop l'⟩ child ∧ l'.Late place := by
  obtain ⟨ends, stage⟩ := late
  have act : (stepLoop flags l inner).on { session := s } = (.ok move, last) := h
  unfold stepLoop at act
  rcases stage with stage | stage | stage <;> simp only [stage] at act
  · rcases hbody : (bodyReturns .forClause inner).on { session := s } with ⟨fault | returns, scene'⟩
    · simp [hbody] at act
    · rw [on_bind, hbody] at act
      cases returns with
      | true =>
        obtain ⟨⟨⟩, -⟩ := Prod.mk.inj act
        exact .inl rfl
      | false => exact .inr (afterBody_late act ends)
  · exact .inr (.inr (checkCondition_late act ends))
  · rw [on_bind, on_session] at act
    dsimp only at act
    split at act
    · exact .inr (.inr (goOn_late act ⟨ends, .inl rfl⟩))
    · exact .inr (.inl (leaveLoop_late act ends))

end Late

end Frame

namespace Machine

variable {H : Type} {host : Host H} {name : String} {out : Except Fault Move × Scene}
  {state state' : H} {r : Except Fault Phase} {s' : Session} {cs : List (Invocation H)}

/-- However often it runs, a loop ends behind its body. -/
theorem Completes.late {phase : Phase} (h : Completes host name out state (.ok phase) s' state' cs)
    {flags : Flags} {l : Frame.Loop} {place : Input} {inner : Option Phase} {s : Session}
    (late : l.Late place) (hout : (⟨flags, .loop l⟩ : Frame).act inner s = out) :
    phase = .ret ∨ phase = .stmtDone ∧ s'.input = place := by
  induction h using Completes.ok_induction generalizing l inner s with
  | done =>
    rcases Frame.act_late late hout with move | ⟨move, input⟩ | ⟨l', child, move, _⟩
    · cases move
      exact .inl rfl
    · cases move
      exact .inr ⟨rfl, input⟩
    · cases move
  | stay =>
    rcases Frame.act_late late hout with move | ⟨move, _⟩ | ⟨l', child, move, _⟩ <;> cases move
  | invoke =>
    rcases Frame.act_late late hout with move | ⟨move, _⟩ | ⟨l', child, move, _⟩ <;> cases move
  | push _ _ _ _ ih =>
    rcases Frame.act_late late hout with move | ⟨move, _⟩ | ⟨l', child, move, late'⟩ <;> cases move
    exact ih late' rfl

/-- A `return` that comes to a frame that relays it goes through. -/
theorem Completes.relayed {f : Frame} {s : Session} {phase : Phase} (relays : f.relays = true)
    (h : Completes host f.name (f.act (some .ret) s) state (.ok phase) s' state' cs) :
    phase = .ret := by
  rcases Frame.act_relays relays s with ⟨scene, hact⟩ | ⟨fault, scene, hact⟩
  · rw [hact] at h
    cases h
    rfl
  · rw [hact] at h
    cases h

/-- The function called leaves the script where it was. -/
def Invocation.LeavesInput (host : Host H) (call : Invocation H) : Prop :=
  ∀ answer s' state', Ends host (host.natives call.key call.args) call.session call.state answer
    s' state' → s'.input = call.session.input

/-- What the shadow of a frame makes of a completion in `phase`: unless that is an executed
`return`, it completes in the same phase at the same place. -/
inductive Shadowing (host : Host H) (name : String) (f : Frame) (inner : Option Phase)
    (t : Session) (stateT : H) (phase : Phase) (s' : Session) : Prop where
  | returned : phase = .ret → f.mayReturn = true → Shadowing host name f inner t stateT phase s'
  | follows {t' stateT'} : phase ≠ .ret →
      Completes host name (f.shadow.act inner t) stateT (.ok phase) t' stateT' [] →
      s'.Abreast t' → Shadowing host name f inner t stateT phase s'

section Shadowing

variable {f self child : Frame} {inner : Option Phase} {s t : Session} {phase : Phase}
  {scene last : Scene} {stateT : H}

theorem Shadowing.of_done (notRet : phase ≠ .ret)
    (hact : f.shadow.act inner t = (.ok (.done phase), last)) (even : s'.Abreast last.session.leave)
    (stateT : H) : Shadowing host name f inner t stateT phase s' := by
  obtain ⟨stateT', comp⟩ := completes_done hact stateT
  exact .follows notRet comp even

theorem Shadowing.of_stay
    (h : Shadowing host self.name self none last.session (host.absorb last.journal stateT) phase s')
    (hact : f.shadow.act inner t = (.ok (.stay self.shadow), last))
    (returns : self.mayReturn = f.mayReturn) :
    Shadowing host name f inner t stateT phase s' := by
  cases h with
  | returned ret through => exact .returned ret (returns ▸ through)
  | @follows t' stateT' notRet comp even =>
    rw [← Frame.name_shadow] at comp
    have whole : Completes host name (f.shadow.act inner t) stateT (.ok phase) t' stateT' [] := by
      rw [hact]
      exact .stay comp
    exact .follows notRet whole even

theorem Shadowing.of_push {inside : Phase} {t₁ : Session} {stateT₁ : H}
    (h : Shadowing host self.name self (some inside) t₁ stateT₁ phase s')
    (hact : f.shadow.act inner t = (.ok (.push self.shadow child.shadow), last))
    (room : last.session.depth < last.session.limits.maxDepth)
    (comp : Completes host child.name (child.shadow.act none last.session.enter)
      (host.absorb (.push self.shadow.name child.shadow.name (last.session.depth + 1) ::
        last.journal) stateT) (.ok inside) t₁ stateT₁ [])
    (returns : self.mayReturn = f.mayReturn) : Shadowing host name f inner t stateT phase s' := by
  cases h with
  | returned ret through => exact .returned ret (returns ▸ through)
  | @follows t' stateT' notRet comp' even =>
    rw [← Frame.name_shadow] at comp comp'
    have whole : Completes host name (f.shadow.act inner t) stateT (.ok phase) t' stateT' [] := by
      rw [hact]
      exact .push room comp comp'
    exact .follows notRet whole even

/-- A loop that runs on ends where its shadow is through. -/
theorem shadowing_of_loop {flags : Flags} {l : Frame.Loop} {place : Input}
    (whole : Completes host name (.ok (.push ⟨flags, .loop l⟩ child), scene) state (.ok .stmtDone)
      s' state' cs)
    (ends : s'.input = place) (even : { scene.session with input := place }.Abreast last.session)
    (hact : f.shadow.act inner t = (.ok (.done .stmtDone), last)) :
    Shadowing host name f inner t stateT .stmtDone s' := by
  obtain ⟨depth, limits⟩ := whole.depth
  exact .of_done (by simp) hact ⟨even.input.trans ends.symm,
    (congrArg (· - 1) even.depth).trans depth.symm, even.limits.trans limits.symm⟩ stateT

end Shadowing

/-- A whole completion is followed by the shadow. -/
theorem Completes.shadow {phase : Phase}
    (h : Completes host name out state (.ok phase) s' state' cs) {f : Frame} {inner : Option Phase}
    {s t : Session} (hout : f.act inner s = out) (first : f.FirstPass) (hinner : inner ≠ some .ret)
    (leave : ∀ call ∈ cs, call.LeavesInput host) (abreast : s.Abreast t) (stateT : H) :
    Shadowing host name f inner t stateT phase s' := by
  induction h using Completes.ok_induction generalizing f inner s t stateT with
  | done =>
    obtain ⟨move, last, hact, shadowed⟩ := Frame.act_follows first hinner abreast hout
    cases shadowed with
    | returned returns => exact .returned rfl returns
    | abreast orderly even => exact .of_done orderly hact even.leave stateT
  | stay _ ih =>
    obtain ⟨move, last, hact, shadowed⟩ := Frame.act_follows first hinner abreast hout
    cases shadowed with
    | abreast orderly even =>
      obtain ⟨returns, first'⟩ := orderly
      exact .of_stay (ih rfl first' (by simp) leave even _) hact returns
  | push room comp₁ comp₂ ih₁ ih₂ =>
    obtain ⟨move, last, hact, shadowed⟩ := Frame.act_follows first hinner abreast hout
    cases shadowed with
    | loops returns late even =>
      rcases comp₂.late late rfl with ret | ⟨rfl, ends⟩
      · exact .returned ret returns
      · exact shadowing_of_loop (.push room comp₁ comp₂) ends even hact
    | abreast orderly even =>
      obtain ⟨returns, first', firstChild, relays⟩ := orderly
      have room' : last.session.depth < last.session.limits.maxDepth := by
        rw [even.depth, even.limits]
        exact room
      cases ih₁ rfl firstChild (by simp) (fun call h => leave call (by simp [h])) even.enter
        (host.absorb (.push _ _ (last.session.depth + 1) :: last.journal) stateT) with
      | returned ret through =>
        subst ret
        have relay := relays through
        exact .returned (comp₂.relayed relay)
          (returns ▸ Frame.mayReturn_of_relays relay)
      | follows notRet compT even₁ =>
        refine .of_push (ih₂ rfl first' (by simpa using notRet)
          (fun call h => leave call (by simp [h])) even₁ _) hact room' compT returns
  | invoke ends =>
    obtain ⟨move, last, hact, shadowed⟩ := Frame.act_follows first hinner abreast hout
    cases shadowed with
    | abreast orderly even =>
      obtain ⟨depth, limits⟩ := ends.depth
      have input := leave _ (List.mem_singleton_self _) _ _ _ ends
      refine .of_done (by simp) hact ?_ stateT
      exact ⟨even.input.trans input.symm, congrArg (· - 1) (even.depth.trans depth.symm),
        even.limits.trans limits.symm⟩

theorem start_shadow {start : Phase} {frame : Frame}
    (h : Frame.start .execute start = .ok frame) :
    frame.FirstPass ∧ Frame.start .none start = .ok frame.shadow := by
  cases start <;> simp only [Frame.start, Except.ok.injEq, reduceCtorEq] at h <;> subst h <;>
    exact ⟨trivial, rfl⟩

/-- Scanning and executing agree. If executing a construct succeeds in a phase other than that of
an executed `return`, and every native function it calls leaves the script where it was, then
scanning the construct from the same session succeeds in the same phase and stops at the same place,
with the same position and the same token put back. -/
theorem parse_none_agrees (host : Host H) (fuel : Nat) (s : Session) (state : H) (start : Phase)
    (fin : Finished H .phase) (phase : Phase)
    (executed : s.parse host fuel state start .execute = some fin) (ok : fin.answer = .ok phase)
    (notReturned : phase ≠ .ret)
    (leave : ∀ call ∈ s.parseCalls host fuel state start .execute, call.LeavesInput host) :
    ∃ n, ∀ steps, n ≤ steps → ∃ scanned, s.parse host steps state start .none = some scanned ∧
      scanned.answer = .ok phase ∧ scanned.session.input = fin.session.input := by
  rcases Session.begins_or_refused s start .execute with ⟨room, frame, hstart⟩ | refused
  · obtain ⟨first, hscan⟩ := start_shadow hstart
    obtain ⟨r, s', state', rfl, comp⟩ := Session.completes_of_parse room hstart executed
    obtain rfl : r = .ok phase := by
      cases r with
      | ok phase' => exact ok
      | error fault => cases ok
    rcases comp.shadow rfl first (by simp) leave (.refl s.enter) state with
      ⟨ret, _⟩ | ⟨_, compT, even⟩
    · exact absurd ret notReturned
    · rw [← Frame.name_shadow] at compT
      obtain ⟨n, hn⟩ := Session.parse_of_completes room hscan compT
      exact ⟨n, fun steps le => ⟨_, (hn steps le).1, rfl, even.input⟩⟩
  · obtain ⟨fault, _, hbegin⟩ := Session.beginParse_refused (z := .phase) (H := H) refused
    simp only [Session.parse, hbegin] at executed
    cases fuel with
    | zero => cases executed
    | succ n =>
      cases executed
      cases ok

theorem parse_none_agrees_loop :
    let host : Host Unit := { natives := fun _ _ => .done () }
    let s : Session := { id := ⟨0, 1⟩, input := .ofScript "for (i = 0; i < 2; i++) f(i); i",
                         functions := ⟨[("f", ⟨"f", false⟩)]⟩ }
    ∃ fin, s.parse host 300 () .stmt .execute = some fin ∧
      ∃ n, ∀ steps, n ≤ steps → ∃ scanned, s.parse host steps () .stmt .none = some scanned ∧
        scanned.answer = .ok .stmtDone ∧ scanned.session.input = fin.session.input := by
  intro host s
  have idle : ∀ call : Invocation Unit, call.LeavesInput host := by
    rintro call answer s' state' ⟨n, h⟩
    match n with
    | 0 | 1 => cases h
    | n + 2 => cases h; rfl
  have ends : (s.parse host 300 () .stmt .execute).bind (·.answer.toOption) = some .stmtDone := by
    decide +kernel
  obtain ⟨⟨answer, s', _⟩, executed, ok⟩ := Option.bind_eq_some_iff.mp ends
  cases answer with
  | error fault => cases ok
  | ok phase =>
    cases ok
    exact ⟨_, executed, parse_none_agrees host 300 s () .stmt _ .stmtDone executed rfl (by decide)
      fun call _ => idle call⟩

end Machine

end Scriptlet
