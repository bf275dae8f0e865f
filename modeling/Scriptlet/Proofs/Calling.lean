import Scriptlet.Proofs.Depth
import Scriptlet.Proofs.Operand
import Scriptlet.Proofs.Watching

/-!
The call under construction. A session has one place for it, which calls that nest in an argument
list take over in turn. Only the frames of calls and of argument lists touch it: a call puts its
own record there and puts the one it found back, an argument list adds the values of its arguments
from left to right, and whatever else completes leaves the record as it was.
-/

namespace Scriptlet

/-! ### Frames that leave the record alone -/

namespace Frame

def assembles (f : Frame) : Bool :=
  match f.construct with
  | .call _ _ | .arguments => true
  | _ => false

/-- A frame that leaves the call under construction as it is when it comes to act. The others are
in the middle of a call. -/
def balanced (f : Frame) : Bool :=
  match f.construct with
  | .call _ (.invoking (some _)) | .arguments => false
  | _ => true

/-- An expression that starts with a token read before does not start with a function's name. -/
def Unnamed (f : Frame) : Prop := ∀ t, f.seed? = some t → t.kind ≠ .function

def Introduced (f : Frame) (inner : Option Phase) (s : Session) : Prop :=
  match f.construct with
  | .call name .opening => inner = none ∧ s.token = ⟨.function, name⟩
  | _ => f.Unnamed

theorem balanced_of_aloof {f : Frame} (aloof : f.assembles = false) : f.balanced = true := by
  obtain ⟨flags, construct⟩ := f
  cases construct with
  | call name stage => cases aloof
  | arguments => cases aloof
  | _ => rfl

theorem unnamed_of_unseeded {f : Frame} (unseeded : f.seed? = none) : f.Unnamed := by
  intro t seeded
  rw [unseeded] at seeded
  cases seeded

theorem Unnamed.introduced {f : Frame} (h : f.Unnamed) (aloof : f.assembles = false)
    (inner : Option Phase) (s : Session) : f.Introduced inner s := by
  obtain ⟨flags, construct⟩ := f
  cases construct with
  | call name stage => cases aloof
  | _ => exact h

theorem Introduced.unnamed {f : Frame} {inner : Option Phase} {s : Session}
    (h : f.Introduced inner s) : f.Unnamed := by
  obtain ⟨flags, construct⟩ := f
  cases construct with
  | call name stage => exact unnamed_of_unseeded rfl
  | _ => exact h

end Frame

def Move.Aloof : Move → Session → Prop
  | .done _, _ => True
  | .stay self, _ => self.assembles = false ∧ self.Unnamed
  | .push self inner, s => self.assembles = false ∧ self.Unnamed ∧ inner.balanced = true ∧
      inner.Introduced none s
  | .invoke _ _ _, _ => False

namespace Act

variable {α : Type} {x : Act Move}

/-- Behind a read that succeeds, the rest goes on with the token. -/
theorem next_bind_ok {phase : Phase} {f : Token → Act α} {scene last : Scene} {a : α}
    (h : (nextToken phase >>= f).on scene = (.ok a, last)) :
    ∃ t input, scene.session.input.next phase = (t, input) ∧
      (f t).on (took scene phase t input) = (.ok a, last) := by
  rw [on_bind] at h
  rcases first : (nextToken phase).on scene with ⟨fault | t, mid⟩
  · rw [first] at h
    cases h
  · obtain ⟨input, read, -, rfl⟩ := nextToken_ok first
    rw [first] at h
    exact ⟨t, input, read, h⟩

def Aloof (x : Act Move) : Prop :=
  ∀ scene move last, x.on scene = (.ok move, last) →
    last.session.call = scene.session.call ∧ move.Aloof last.session

namespace Aloof

theorem pure {move : Move} (h : ∀ s, move.Aloof s) : (pure move : Act Move).Aloof := by
  rintro scene _ _ ⟨⟩
  exact ⟨rfl, h _⟩

theorem fail (cause : Fault.Cause) : (fail cause : Act Move).Aloof := by
  rintro scene move last ⟨⟩

theorem bind {y : Act α} {f : α → Act Move} (hy : y.Keeps (·.call)) (hf : ∀ a, (f a).Aloof) :
    (y >>= f).Aloof := by
  intro scene move last h
  have kept := hy scene
  rw [on_bind] at h
  rcases first : y.on scene with ⟨fault | a, mid⟩
  · rw [first] at h
    cases h
  · rw [first] at h kept
    obtain ⟨same, aloof⟩ := hf a mid move last h
    exact ⟨same.trans kept, aloof⟩

theorem ite {p : Prop} [Decidable p] {y : Act Move} (hx : x.Aloof) (hy : y.Aloof) :
    (if p then x else y).Aloof := by
  split
  · exact hx
  · exact hy

theorem session_bind {f : Session → Act Move} (h : ∀ s, (f s).Aloof) : (session >>= f).Aloof :=
  bind (fun _ => rfl) h

theorem next_bind {phase : Phase} {f : Token → Act Move} (h : ∀ t, (f t).Aloof) :
    (nextToken phase >>= f).Aloof :=
  bind (.nextToken (fun _ _ _ => rfl) phase) h

theorem unread_bind {t : Token} {f : Unit → Act Move} (h : (f ()).Aloof) :
    (unread t >>= f).Aloof :=
  bind (.update fun _ => rfl) fun _ => h

theorem expect_bind {phase : Phase} {kind : Token.Kind} {f : Unit → Act Move} (h : (f ()).Aloof) :
    (expect phase kind >>= f).Aloof := by
  rw [expect_bind_eq]
  exact next_bind fun t => ite (fail _) h

/-- A value worked out only while something is executed. -/
theorem value_bind {flags : Flags} {y : Act String} {f : String → Act Move}
    (hy : y.Keeps (·.call)) (hf : ∀ value, (f value).Aloof) :
    ((if flags.executes then y else Pure.pure "") >>= f).Aloof :=
  bind (.ite hy (.pure "")) hf

end Aloof

end Act

namespace Frame

open Act

variable {flags : Flags}

/-- Something to read for a frame, begun with a token that is no function's name. -/
theorem push_aloof {self inner : Frame} (aloof : self.assembles = false)
    (unseeded : self.seed? = none) (plain : inner.assembles = false) (fresh : inner.seed? = none) :
    (pure (.push self inner) : Act Move).Aloof :=
  .pure fun s => ⟨aloof, unnamed_of_unseeded unseeded, balanced_of_aloof plain,
    (unnamed_of_unseeded fresh).introduced plain none s⟩

theorem finishTier_aloof (t : Token) (value : String) (phase : Phase) :
    (finishTier flags t value phase).Aloof :=
  .unread_bind (.ite (.bind (.update fun _ => rfl) fun _ => .pure fun _ => trivial)
    (.pure fun _ => trivial))

theorem closeCond_aloof (nl : Bool) (value : String) : (closeCond flags nl value).Aloof := by
  refine .next_bind fun t => ?_
  split
  · exact push_aloof rfl rfl rfl rfl
  · exact push_aloof rfl rfl rfl rfl
  · exact finishTier_aloof t value .condDone

theorem stepCond_aloof (nl : Bool) (stage : CondStage)
    (unnamed : ∀ t, stage = .start (some t) → t.kind ≠ .function) :
    (stepCond flags nl stage).Aloof := by
  cases stage with
  | start seed =>
    exact .pure fun _ =>
      ⟨rfl, unnamed_of_unseeded rfl, rfl, fun t seeded => unnamed t (by cases seeded; rfl)⟩
  | first =>
    rw [stepCond_first]
    exact .value_bind (.takeResult fun _ _ => rfl) fun value => closeCond_aloof nl value
  | joining left op settled =>
    rw [stepCond_joining]
    refine .value_bind (.ite (.pure _) ?_) fun value => closeCond_aloof nl value
    exact .session_bind fun s => .ofExcept _

theorem closeRel_aloof (nl : Bool) (value : String) : (closeRel flags nl value).Aloof := by
  refine .next_bind fun t => ?_
  split
  · exact .ite (push_aloof rfl rfl rfl rfl) (finishTier_aloof t value .relExpDone)
  · exact finishTier_aloof t value .relExpDone

theorem stepRel_aloof (nl : Bool) (stage : RelStage)
    (unnamed : ∀ t, stage = .start (some t) → t.kind ≠ .function) :
    (stepRel flags nl stage).Aloof := by
  cases stage with
  | start seed =>
    exact .pure fun _ =>
      ⟨rfl, unnamed_of_unseeded rfl, rfl, fun t seeded => unnamed t (by cases seeded; rfl)⟩
  | first =>
    rw [stepRel_first]
    exact .value_bind (.takeResult fun _ _ => rfl) fun value => closeRel_aloof nl value
  | joining left op =>
    rw [stepRel_joining]
    refine .value_bind (.session_bind fun s => ?_) fun value => closeRel_aloof nl value
    exact .bind (.ofExcept _) fun _ => .pure _

theorem closeTerm_aloof (nl : Bool) (terms : Terms) (term : String) :
    (closeTerm flags nl terms term).Aloof := by
  rw [closeTerm_eq]
  refine .value_bind (.ofExcept _) fun value => .next_bind fun t => ?_
  split
  · exact .ite (.pure fun _ => ⟨rfl, unnamed_of_unseeded rfl⟩) (finishTier_aloof t value .exprDone)
  · exact finishTier_aloof t value .exprDone

theorem openTerm_aloof (nl : Bool) (terms : Terms) {t : Token} (unnamed : t.kind ≠ .function) :
    (openTerm flags nl terms t).Aloof := by
  obtain ⟨kind, text⟩ := t
  by_cases name : kind = .identifier
  · subst name
    rw [openTerm_identifier]
    exact .value_bind (.readVariable text) fun value => closeTerm_aloof nl terms value
  · unfold openTerm
    split
    · exact closeTerm_aloof nl terms text
    · exact absurd ‹_› name
    · exact absurd ‹_› unnamed
    · exact push_aloof rfl rfl rfl rfl
    · exact .pure fun _ => ⟨rfl, unnamed_of_unseeded rfl⟩
    · exact .pure fun _ => ⟨rfl, unnamed_of_unseeded rfl⟩
    · exact .fail _

/-- The token just read is the name of the call that it opens. -/
theorem readTerm_aloof (nl : Bool) (terms : Terms) :
    (nextToken .expr >>= openTerm flags nl terms).Aloof := by
  intro scene move last h
  obtain ⟨t, input, -, h⟩ := next_bind_ok h
  by_cases named : t.kind = .function
  · obtain ⟨kind, name⟩ := t
    obtain rfl : kind = .function := named
    cases h
    exact ⟨rfl, rfl, unnamed_of_unseeded rfl, rfl, rfl, rfl⟩
  · obtain ⟨kept, aloof⟩ := openTerm_aloof nl terms named _ _ _ h
    exact ⟨kept, aloof⟩

theorem stepExpr_aloof (nl : Bool) (terms : Terms)
    (unnamed : ∀ t, terms.stage = .term (some t) → t.kind ≠ .function) :
    (stepExpr flags nl terms).Aloof := by
  have close : (innerValue flags >>= closeTerm flags nl terms).Aloof :=
    .value_bind (.takeResult fun _ _ => rfl) fun value => closeTerm_aloof nl terms value
  unfold stepExpr
  split
  · exact openTerm_aloof nl terms (unnamed _ ‹_›)
  · exact readTerm_aloof nl terms
  · exact .expect_bind close
  · exact close

/-! Statements -/

theorem openStatement_aloof (t : Token) : (openStatement flags t).Aloof := by
  unfold openStatement
  split
  · exact .pure fun _ => ⟨rfl, unnamed_of_unseeded rfl⟩
  iterate 3 exact .pure fun _ => trivial
  iterate 5 exact push_aloof rfl rfl rfl rfl
  iterate 6 exact .unread_bind (push_aloof rfl rfl rfl rfl)
  exact .fail _

theorem terminate_aloof : terminate.Aloof := by
  refine .next_bind fun t => ?_
  split
  · exact .pure fun _ => trivial
  · exact .pure fun _ => trivial
  iterate 3 exact .unread_bind (.pure fun _ => trivial)
  exact .fail _

theorem stepStatement_aloof (stage : StatementStage) (inner : Option Phase) :
    (stepStatement flags stage inner).Aloof := by
  cases stage with
  | start => exact .next_bind fun t => openStatement_aloof t
  | forward terminated =>
    exact .ite (.pure fun _ => trivial) (.ite terminate_aloof (.pure fun _ => trivial))

theorem stepBlock_aloof (scope : Option BlockId) (inner : Option Phase) :
    (stepBlock flags scope inner).Aloof := by
  have leave : ∀ phase, (leaveBlock scope phase).Aloof := by
    intro phase
    cases scope with
    | none => exact .pure fun _ => trivial
    | some id => exact .bind (.closeBlock (fun _ _ => rfl) id) fun _ => .pure fun _ => trivial
  cases inner with
  | none =>
    refine .ite (.bind (.openBlock fun _ _ => rfl) fun id => ?_) (push_aloof rfl rfl rfl rfl)
    exact .bind (.emit _) fun _ => push_aloof rfl rfl rfl rfl
  | some phase =>
    cases phase with
    | stmtDone => exact push_aloof rfl rfl rfl rfl
    | stmtBlockDone => exact leave .stmtBlockDone
    | ret => exact leave .ret
    | _ => exact .fail _

theorem bodyReturns_bind_aloof (clause : Fault.Clause) (inner : Option Phase)
    {f : Bool → Act Move} (h : ∀ returns, (f returns).Aloof) :
    (bodyReturns clause inner >>= f).Aloof := by
  refine .bind ?_ h
  unfold bodyReturns
  split
  · exact .pure _
  iterate 3 exact .fail _
  · exact .pure _

theorem stepBranch_aloof (stage : BranchStage) (inner : Option Phase) :
    (stepBranch flags stage inner).Aloof := by
  cases stage with
  | opening => exact .expect_bind (push_aloof rfl rfl rfl rfl)
  | afterCondition => exact .session_bind fun s => .expect_bind (push_aloof rfl rfl rfl rfl)
  | afterThen taken =>
    exact bodyReturns_bind_aloof _ inner fun returns =>
      .ite (.pure fun _ => trivial) (.pure fun _ => ⟨rfl, unnamed_of_unseeded rfl⟩)
  | seekElse taken =>
    refine .next_bind fun t => ?_
    split
    · exact .pure fun _ => ⟨rfl, unnamed_of_unseeded rfl⟩
    · exact push_aloof rfl rfl rfl rfl
    · exact .unread_bind (.pure fun _ => trivial)
  | afterElse =>
    exact bodyReturns_bind_aloof _ inner fun returns =>
      .ite (.pure fun _ => trivial) (.pure fun _ => trivial)

theorem startBody_aloof (l : Loop) : (startBody flags l).Aloof :=
  .session_bind fun _ => push_aloof rfl rfl rfl rfl

theorem startIncrement_aloof (l : Loop) : (startIncrement flags l).Aloof :=
  .session_bind fun _ => .next_bind fun _ =>
    .ite (startBody_aloof l) (.unread_bind (push_aloof rfl rfl rfl rfl))

theorem startCondition_aloof (l : Loop) : (startCondition flags l).Aloof :=
  .session_bind fun _ => .next_bind fun _ =>
    .ite (startIncrement_aloof _) (.unread_bind (push_aloof rfl rfl rfl rfl))

theorem resume_bind_aloof {checkpoint : Option Input} {x : Unit → Act Move} (h : (x ()).Aloof) :
    (resume checkpoint >>= x).Aloof := by
  refine .bind ?_ fun _ => h
  cases checkpoint with
  | none => exact .pure _
  | some input => exact .update fun _ => rfl

theorem repeatBody_aloof (l : Loop) : (repeatBody flags l).Aloof :=
  resume_bind_aloof (push_aloof rfl rfl rfl rfl)

theorem checkCondition_aloof (l : Loop) : (checkCondition flags l).Aloof :=
  .ite (resume_bind_aloof (push_aloof rfl rfl rfl rfl)) (repeatBody_aloof l)

theorem leaveLoop_aloof (l : Loop) : (leaveLoop l).Aloof :=
  resume_bind_aloof (.pure fun _ => trivial)

theorem afterBody_aloof (l : Loop) : (afterBody flags l).Aloof :=
  .session_bind fun _ => .ite (leaveLoop_aloof _)
    (.ite (resume_bind_aloof (push_aloof rfl rfl rfl rfl)) (checkCondition_aloof _))

theorem stepLoop_aloof (l : Loop) (inner : Option Phase) : (stepLoop flags l inner).Aloof := by
  unfold stepLoop
  split
  · refine .expect_bind (.next_bind fun t => ?_)
    split
    · exact startCondition_aloof l
    · exact push_aloof rfl rfl rfl rfl
    · exact .unread_bind (push_aloof rfl rfl rfl rfl)
  · exact .expect_bind (startCondition_aloof l)
  · exact .session_bind fun s => .expect_bind (startIncrement_aloof _)
  · exact .expect_bind (startBody_aloof l)
  · exact bodyReturns_bind_aloof _ inner fun _ => .ite (.pure fun _ => trivial) (afterBody_aloof l)
  · exact checkCondition_aloof l
  · exact .session_bind fun s => .ite (repeatBody_aloof _) (leaveLoop_aloof l)

theorem stepSimple_aloof (nl : Bool) (stage : SimpleStage) :
    (stepSimple flags nl stage).Aloof := by
  cases stage with
  | start =>
    have bumped : ∀ op name, (bumpVariable op name).Keeps (·.call) := fun op name =>
      .bind (.readVariable name) fun _ => .bind (.ofExcept _) fun _ => .update fun _ => rfl
    refine .next_bind fun t => ?_
    by_cases other : t.kind ≠ .identifier
    · rw [if_pos other]
      exact .unread_bind (push_aloof rfl rfl rfl rfl)
    · rw [if_neg other]
      have name : t.kind ≠ .function := fun call => other (by simp [call])
      refine .next_bind fun behind => ?_
      split
      · exact push_aloof rfl rfl rfl rfl
      · exact .ite (.bind (bumped _ _) fun _ => .pure fun _ => trivial) (.pure fun _ => trivial)
      · refine .unread_bind (.pure fun _ => ⟨rfl, unnamed_of_unseeded rfl, rfl, ?_⟩)
        rintro _ ⟨⟩
        exact name
  | assigning name =>
    exact .ite (.bind (.update fun _ => rfl) fun _ => .pure fun _ => trivial)
      (.pure fun _ => trivial)
  | valued => exact .pure fun _ => trivial

theorem stepDeclarations_aloof (nl : Bool) (inner : Option Phase) :
    (stepDeclarations flags nl inner).Aloof := by
  have declare : (do
      let t ← nextToken .decList
      if t.kind ≠ .identifier then fail (.expectedName t)
      return Move.push ⟨flags, .declarations nl⟩ ⟨flags, .declaration nl t.text⟩ :
      Act Move).Aloof :=
    .next_bind fun t => .ite (.bind (.fail _) fun _ => push_aloof rfl rfl rfl rfl)
      (push_aloof rfl rfl rfl rfl)
  cases inner with
  | none => exact declare
  | some phase =>
    exact .next_bind fun t => .ite declare (.unread_bind (.pure fun _ => trivial))

theorem stepDeclaration_aloof (nl : Bool) (name : String) (inner : Option Phase) :
    (stepDeclaration flags nl name inner).Aloof := by
  have bound : ∀ value, (do
      if flags.executes then update (·.setLocal name value)
      return Move.done .decDone : Act Move).Aloof := fun value =>
    .ite (.bind (.update fun _ => rfl) fun _ => .pure fun _ => trivial) (.pure fun _ => trivial)
  cases inner with
  | none =>
    exact .next_bind fun t => .ite (push_aloof rfl rfl rfl rfl) (.unread_bind (bound ""))
  | some phase => exact .session_bind fun s => bound s.result

theorem stepReturning_aloof (inner : Option Phase) : (stepReturning flags inner).Aloof := by
  have finish : (do
      if flags.executes then setResult ""
      return .done (if flags.executes then .ret else .stmtDone) : Act Move).Aloof :=
    .ite (.bind (.update fun _ => rfl) fun _ => .pure fun _ => trivial) (.pure fun _ => trivial)
  cases inner with
  | some phase => exact .pure fun _ => trivial
  | none =>
    refine .next_bind fun t => .unread_bind ?_
    split
    iterate 4 exact finish
    exact push_aloof rfl rfl rfl rfl

theorem step_aloof {f : Frame} {inner : Option Phase} (aloof : f.assembles = false)
    (unnamed : f.Unnamed) : (f.step inner).Aloof := by
  obtain ⟨flags, construct⟩ := f
  cases construct with
  | statement stage => exact stepStatement_aloof stage inner
  | block scope => exact stepBlock_aloof scope inner
  | branch stage => exact stepBranch_aloof stage inner
  | loop l => exact stepLoop_aloof l inner
  | simple nl stage => exact stepSimple_aloof nl stage
  | declarations nl => exact stepDeclarations_aloof nl inner
  | declaration nl name => exact stepDeclaration_aloof nl name inner
  | returning => exact stepReturning_aloof inner
  | cond nl stage =>
    exact stepCond_aloof nl stage fun t first => unnamed t (by simp [seed?, first])
  | rel nl stage =>
    exact stepRel_aloof nl stage fun t first => unnamed t (by simp [seed?, first])
  | expr nl terms =>
    obtain ⟨stage, left, unary⟩ := terms
    refine stepExpr_aloof nl _ fun t first => unnamed t ?_
    obtain rfl : stage = .term (some t) := first
    rfl
  | call name stage => cases aloof
  | arguments => cases aloof

end Frame

/-! ### All that frames do -/

def Session.withArgument (s : Session) (t : Token) (i : Input) : Session :=
  { s with input := i, token := t, result := "" }.addArgs [s.result]

/-- What is added to like records makes like records. -/
theorem Session.call_addArgs {s s' : Session} (h : s'.call = s.call) (values : List String) :
    (s'.addArgs values).call = (s.addArgs values).call := by
  simp only [addArgs, h]

theorem Session.call_withArgument (s : Session) (t : Token) (i : Input) (values : List String) :
    ((s.withArgument t i).addArgs values).call = (s.addArgs (s.result :: values)).call := by
  rw [withArgument, addArgs_addArgs]
  rfl

namespace Frame

open Act

inductive Course : Frame → Option Phase → Session → Move → Scene → Prop where
  | aloof {f inner s move scene} : f.assembles = false → scene.session.call = s.call →
      move.Aloof scene.session → Course f inner s move scene
  /-- A call that is executed finds its function and leaves a record with its name and no arguments.
  What it finds in that place it keeps. -/
  | opens {flags name inner s t i target} : flags.executes = true →
      s.input.next .expr = (t, i) → t.kind = .lparen → s.functions.get? name = some target →
      Course ⟨flags, .call name .opening⟩ inner s
        (.push ⟨flags, .call name (.invoking (some (target, s.call)))⟩ ⟨flags, .arguments⟩)
        ⟨{ s with input := i, token := t, call := some { name } }, [.token .expr t]⟩
  | skips {flags name inner s t i} : flags.executes = false →
      Course ⟨flags, .call name .opening⟩ inner s
        (.push ⟨flags, .call name (.invoking none)⟩ ⟨flags, .arguments⟩)
        ⟨{ s with input := i, token := t }, [.token .expr t]⟩
  | skipped {flags name inner s} :
      Course ⟨flags, .call name (.invoking none)⟩ inner s (.done .exprDone) ⟨s, []⟩
  | invokes {flags name inner s target saved journal} :
      Course ⟨flags, .call name (.invoking (some (target, saved)))⟩ inner s
        (.invoke target ((s.call.map (·.args)).getD []) saved) ⟨{ s with result := "" }, journal⟩
  | empty {flags s t i} : s.input.next .argList = (t, i) → t.kind = .rparen →
      Course ⟨flags, .arguments⟩ none s (.done .argListDone)
        ⟨{ s with input := i, token := t }, [.token .argList t]⟩
  | first {flags s t i} : s.input.next .argList = (t, i) → t.kind ≠ .rparen →
      Course ⟨flags, .arguments⟩ none s (.push ⟨flags, .arguments⟩ (newCond flags false none))
        ⟨{ s with input := i.unread t, token := t }, [.token .argList t]⟩
  | another {flags s phase t i} : s.input.next .argList = (t, i) → t.kind = .comma →
      Course ⟨flags, .arguments⟩ (some phase) s
        (.push ⟨flags, .arguments⟩ (newCond flags false none))
        ⟨if flags.executes then s.withArgument t i else { s with input := i, token := t },
          [.token .argList t]⟩
  | last {flags s phase t i} : s.input.next .argList = (t, i) → t.kind = .rparen →
      Course ⟨flags, .arguments⟩ (some phase) s (.done .argListDone)
        ⟨if flags.executes then s.withArgument t i else { s with input := i, token := t },
          [.token .argList t]⟩

variable {flags : Flags} {name : String} {inner : Option Phase} {s : Session} {move : Move}
  {scene : Scene}

theorem opening_course
    (h : (⟨flags, .call name .opening⟩ : Frame).act inner s = (.ok move, scene)) :
    Course ⟨flags, .call name .opening⟩ inner s move scene := by
  have h : (stepCall flags name .opening).on { session := s } = (.ok move, scene) := h
  rw [stepCall, expect_bind_eq] at h
  obtain ⟨t, i, read, h⟩ := next_bind_ok h
  rw [on_ite] at h
  split at h
  · cases h
  · rename_i opens
    cases exe : flags.executes with
    | false =>
      simp only [exe, Bool.false_eq_true, if_false] at h
      cases h
      exact .skips exe
    | true =>
      simp only [exe, if_true, on_bind, on_session] at h
      cases found : s.functions.get? name with
      | none =>
        have missing : (took { session := s } .expr t i).session.functions.get? name = none := found
        rw [missing] at h
        cases h
      | some target =>
        have registered : (took { session := s } .expr t i).session.functions.get? name =
            some target := found
        rw [registered] at h
        cases h
        exact .opens exe read (Decidable.not_not.mp opens) found

theorem arguments_course
    (h : (⟨flags, .arguments⟩ : Frame).act inner s = (.ok move, scene)) :
    Course ⟨flags, .arguments⟩ inner s move scene := by
  have h : (stepArguments flags inner).on { session := s } = (.ok move, scene) := h
  cases inner with
  | none =>
    obtain ⟨t, i, read, h⟩ := next_bind_ok h
    by_cases closes : t.kind = .rparen
    · rw [if_pos closes] at h
      cases h
      exact .empty read closes
    · rw [if_neg closes] at h
      cases h
      exact .first read closes
  | some phase =>
    have added : ∃ mid : Scene, mid.session.input = s.input ∧
        (∀ t i, took mid .argList t i =
          ⟨if flags.executes then s.withArgument t i else { s with input := i, token := t },
            [.token .argList t]⟩) ∧
        (afterArgument flags).on mid = (.ok move, scene) := by
      rw [stepArguments_some] at h
      cases exe : flags.executes with
      | false => exact ⟨{ session := s }, rfl, fun _ _ => rfl, by simpa [exe] using h⟩
      | true =>
        have adds : addArgument.on { session := s } =
            (.ok (), { session := { s with result := "" }.addArgs [s.result] }) := rfl
        exact ⟨{ session := { s with result := "" }.addArgs [s.result] }, rfl, fun _ _ => rfl,
          by simpa [exe, adds] using h⟩
    obtain ⟨mid, input, behind, h⟩ := added
    obtain ⟨t, i, read, h⟩ := next_bind_ok h
    rw [input] at read
    rw [behind] at h
    split at h
    · cases h
      exact .another read ‹_›
    · cases h
      exact .last read ‹_›
    · cases h

theorem act_course {f : Frame} (h : f.act inner s = (.ok move, scene)) (unnamed : f.Unnamed) :
    f.Course inner s move scene := by
  by_cases aloof : f.assembles = false
  · obtain ⟨kept, goesOn⟩ := step_aloof aloof unnamed { session := s } move scene h
    exact .aloof aloof kept goesOn
  · obtain ⟨flags, construct⟩ := f
    cases construct with
    | call name stage =>
      cases stage with
      | opening => exact opening_course h
      | invoking target =>
        cases target with
        | none =>
          cases h
          exact .skipped
        | some target =>
          cases h
          exact .invokes
    | arguments => exact arguments_course h
    | _ => exact absurd rfl aloof

theorem not_invoking {f : Frame} (balanced : f.balanced = true) (name : String)
    (target : Callable × Option Call) : f.construct ≠ .call name (.invoking (some target)) := by
  intro same
  simp [Frame.balanced, same] at balanced

/-- A frame that is put on top of another one may act and is in the middle of no call, and the other
one may go on behind it. -/
theorem Course.pushes {f self child : Frame} (h : Course f inner s (.push self child) scene) :
    child.Introduced none scene.session ∧
      (∀ name target, child.construct ≠ .call name (.invoking (some target))) ∧
      ∀ phase s₁, self.Introduced (some phase) s₁ := by
  cases h with
  | aloof _ _ goesOn =>
    obtain ⟨aloof, unnamed, balanced, introduced⟩ := goesOn
    exact ⟨introduced, not_invoking balanced, fun phase => unnamed.introduced aloof (some phase)⟩
  | opens => exact ⟨unnamed_of_unseeded rfl, nofun, fun _ _ => unnamed_of_unseeded rfl⟩
  | skips => exact ⟨unnamed_of_unseeded rfl, nofun, fun _ _ => unnamed_of_unseeded rfl⟩
  | first => exact ⟨unnamed_of_unseeded rfl, nofun, fun _ _ => unnamed_of_unseeded rfl⟩
  | another => exact ⟨unnamed_of_unseeded rfl, nofun, fun _ _ => unnamed_of_unseeded rfl⟩

end Frame

/-! ### What an argument list gathers -/

namespace Machine

variable {H : Type}

/-- `GathersRest host flags s state values s' state'`: behind an argument, whose value is the result
of `s`, this value and those of the arguments that follow are `values`, up to the closing
parenthesis. Each of them is parsed on the session as it is behind the one in front of it, with the
values so far in the record of the call. -/
inductive GathersRest (host : Host H) (flags : Flags) :
    Session → H → List String → Session → H → Prop where
  | last {s state t i} (events : List Event) :
      s.input.next .argList = (t, i) → t.kind = .rparen →
      GathersRest host flags s state [s.result] (s.withArgument t i) (host.absorb events state)
  | more {s state t i fuel phase s₁ state₁ values s' state'} (events : List Event) :
      s.input.next .argList = (t, i) → t.kind = .comma →
      (s.withArgument t i).parse host fuel (host.absorb events state) .cond flags =
        some ⟨.ok phase, s₁, state₁⟩ →
      GathersRest host flags s₁ state₁ values s' state' →
      GathersRest host flags s state (s.result :: values) s' state'

/-- The same right behind the opening parenthesis. -/
inductive Gathers (host : Host H) (flags : Flags) :
    Session → H → List String → Session → H → Prop where
  | none {s state t i} (events : List Event) :
      s.input.next .argList = (t, i) → t.kind = .rparen →
      Gathers host flags s state [] { s with input := i, token := t } (host.absorb events state)
  | some {s state t i fuel phase s₁ state₁ values s' state'} (events : List Event) :
      s.input.next .argList = (t, i) → t.kind ≠ .rparen →
      { s with input := i.unread t, token := t }.parse host fuel (host.absorb events state) .cond
        flags = some ⟨.ok phase, s₁, state₁⟩ →
      GathersRest host flags s₁ state₁ values s' state' →
      Gathers host flags s state values s' state'

def GathersFrom (host : Host H) (flags : Flags) (inner : Option Phase) :
    Session → H → List String → Session → H → Prop :=
  match inner with
  | .none => Gathers host flags
  | .some _ => GathersRest host flags

end Machine

namespace Frame

open Machine

variable {H : Type} {host : Host H}

def Leaves (host : Host H) (f : Frame) (inner : Option Phase) (s : Session) (state : H)
    (s' : Session) (state' : H) : Prop :=
  match f.construct with
  | .call _ (.invoking (some (_, saved))) => s'.call = saved
  | .arguments =>
    if f.flags.executes then
      ∃ values s₁, GathersFrom host f.flags inner s state values s₁ state' ∧ s' = s₁.leave ∧
        s'.call = (s.addArgs values).call
    else s'.call = s.call
  | _ => s'.call = s.call

theorem leaves_of_balanced {f : Frame} {inner : Option Phase} {s s' : Session} {state state' : H}
    (balanced : f.balanced = true) :
    f.Leaves host inner s state s' state' ↔ s'.call = s.call := by
  obtain ⟨flags, construct⟩ := f
  unfold Leaves
  split
  · rename_i same
    obtain rfl := same
    cases balanced
  · rename_i same
    obtain rfl := same
    cases balanced
  · exact .rfl

end Frame

/-! ### Calls that complete -/

namespace Frame

open Machine

variable {H : Type} {host : Host H} {flags : Flags} {inner : Option Phase} {s s' s₁ : Session}
  {state state' : H}

theorem leaves_executed {values : List String} (executes : flags.executes = true)
    (gathered : GathersFrom host flags inner s state values s₁ state')
    (record : s₁.call = (s.addArgs values).call) :
    Leaves host ⟨flags, .arguments⟩ inner s state s₁.leave state' := by
  unfold Leaves
  simp only [executes, if_true]
  exact ⟨values, s₁, gathered, rfl, record⟩

theorem leaves_scanned (scans : flags.executes = false) (kept : s'.call = s.call) :
    Leaves host ⟨flags, .arguments⟩ inner s state s' state' := by
  unfold Leaves
  simp only [scans, Bool.false_eq_true, if_false]
  exact kept

theorem Leaves.gathered (executes : flags.executes = true)
    (h : Leaves host ⟨flags, .arguments⟩ inner s state s' state') :
    ∃ values s₁, GathersFrom host flags inner s state values s₁ state' ∧ s' = s₁.leave ∧
      s'.call = (s.addArgs values).call := by
  unfold Leaves at h
  simpa only [executes, if_true] using h

theorem Leaves.scanned (scans : flags.executes = false)
    (h : Leaves host ⟨flags, .arguments⟩ inner s state s' state') : s'.call = s.call := by
  unfold Leaves at h
  simpa only [scans, Bool.false_eq_true, if_false] using h

end Frame

namespace Machine

open Scriptlet.Frame

variable {H : Type} {host : Host H}

/-- An argument that completes is parsed. -/
theorem parse_of_argument {flags : Flags} {s s₁ : Session} {state state₁ : H} {phase : Phase}
    {cs : List (Invocation H)} (room : s.depth < s.limits.maxDepth)
    (comp : Completes host (newCond flags false none).name
      ((newCond flags false none).act none s.enter) state (.ok phase) s₁ state₁ cs) :
    ∃ fuel, s.parse host fuel state .cond flags = some ⟨.ok phase, s₁, state₁⟩ := by
  have starts : Frame.start flags .cond = .ok (newCond flags false none) := rfl
  obtain ⟨fuel, parses⟩ := Session.parse_of_completes room starts comp
  have depth : s₁.depth = s.depth := by
    rw [(comp.depth).1, (Frame.act_depth _ none s.enter).1]
    rfl
  refine ⟨fuel, (parses fuel (Nat.le_refl fuel)).1.trans ?_⟩
  rw [← depth]
  rfl

section Arguments

variable {flags : Flags} {s s₁ s' : Session} {state state₁ state' : H} {t : Token} {i : Input}
  {phase inside : Phase} {cs : List (Invocation H)} {events : List Event}

/-- What the first argument and those behind it leave. -/
theorem leaves_first (read : s.input.next .argList = (t, i)) (opens : t.kind ≠ .rparen)
    (room : s.depth < s.limits.maxDepth)
    (comp : Completes host (newCond flags false none).name ((newCond flags false none).act none
      { s with input := i.unread t, token := t }.enter) (host.absorb events state) (.ok inside) s₁
      state₁ cs)
    (within : s₁.call = s.call)
    (behind : Leaves host ⟨flags, .arguments⟩ (some inside) s₁ state₁ s' state') :
    Leaves host ⟨flags, .arguments⟩ none s state s' state' := by
  cases exe : flags.executes with
  | false => exact leaves_scanned exe ((behind.scanned exe).trans within)
  | true =>
    obtain ⟨values, s₂, gathered, rfl, record⟩ := behind.gathered exe
    obtain ⟨fuel, parses⟩ :=
      parse_of_argument (s := { s with input := i.unread t, token := t }) room comp
    exact leaves_executed exe (.some _ read opens parses gathered)
      (record.trans (Session.call_addArgs within values))

/-- What an argument that has been parsed and those behind it leave. -/
theorem leaves_another (read : s.input.next .argList = (t, i)) (comma : t.kind = .comma)
    (room : s.depth < s.limits.maxDepth)
    (comp : Completes host (newCond flags false none).name ((newCond flags false none).act none
      (if flags.executes then s.withArgument t i else { s with input := i, token := t }).enter)
      (host.absorb events state) (.ok inside) s₁ state₁ cs)
    (within : s₁.call =
      (if flags.executes then s.withArgument t i else { s with input := i, token := t }).call)
    (behind : Leaves host ⟨flags, .arguments⟩ (some inside) s₁ state₁ s' state') :
    Leaves host ⟨flags, .arguments⟩ (some phase) s state s' state' := by
  cases exe : flags.executes with
  | false =>
    rw [if_neg (by simp [exe])] at within
    exact leaves_scanned exe ((behind.scanned exe).trans within)
  | true =>
    rw [if_pos exe] at within comp
    obtain ⟨values, s₂, gathered, rfl, record⟩ := behind.gathered exe
    obtain ⟨fuel, parses⟩ := parse_of_argument (s := s.withArgument t i) room comp
    have record := record.trans (Session.call_addArgs within values)
    exact leaves_executed exe (.more _ read comma parses gathered)
      (record.trans (s.call_withArgument t i values))

end Arguments

/-- A frame that completes well has treated the call under construction as its kind does: an
argument list has added the values that it gathered, a call has put back what it found, and no other
frame has changed it. -/
theorem Completes.leaves {name : String} {out : Except Fault Move × Scene} {state state' : H}
    {phase : Phase} {s' : Session} {cs : List (Invocation H)}
    (h : Completes host name out state (.ok phase) s' state' cs) {top : Frame}
    {inner : Option Phase} {s : Session} (hact : top.act inner s = out) (unnamed : top.Unnamed) :
    top.Leaves host inner s state s' state' := by
  induction h using Completes.ok_induction generalizing top inner s with
  | done =>
    cases act_course hact unnamed with
    | aloof plain kept _ => exact (leaves_of_balanced (balanced_of_aloof plain)).mpr kept
    | skipped => exact rfl
    | @empty flags _ t i read closes =>
      cases exe : flags.executes with
      | false => exact leaves_scanned exe rfl
      | true => exact leaves_executed exe (.none _ read closes) (by rw [Session.addArgs_nil])
    | @last flags _ _ t i read closes =>
      cases exe : flags.executes with
      | false => exact leaves_scanned exe rfl
      | true => exact leaves_executed exe (.last _ read closes) rfl
  | stay comp ih =>
    cases act_course hact unnamed with
    | aloof plain kept goesOn =>
      have behind := ih rfl goesOn.2
      rw [leaves_of_balanced (balanced_of_aloof goesOn.1)] at behind
      exact (leaves_of_balanced (balanced_of_aloof plain)).mpr (behind.trans kept)
  | push room comp comp' ih ih' =>
    cases act_course hact unnamed with
    | aloof plain kept goesOn =>
      obtain ⟨aloof, unnamed', balanced, introduced⟩ := goesOn
      have within := (leaves_of_balanced balanced).mp (ih rfl introduced.unnamed)
      have behind := (leaves_of_balanced (balanced_of_aloof aloof)).mp (ih' rfl unnamed')
      exact (leaves_of_balanced (balanced_of_aloof plain)).mpr
        (behind.trans (within.trans kept))
    | opens => exact ih' rfl (unnamed_of_unseeded rfl)
    | skips scans =>
      have within := (ih rfl (unnamed_of_unseeded rfl)).scanned scans
      exact (ih' rfl (unnamed_of_unseeded rfl)).trans within
    | first read opens =>
      exact leaves_first read opens room comp (ih rfl (unnamed_of_unseeded rfl))
        (ih' rfl (unnamed_of_unseeded rfl))
    | @another flags _ _ t i read comma =>
      have room : s.depth < s.limits.maxDepth := by
        split at room <;> exact room
      exact leaves_another read comma room comp (ih rfl (unnamed_of_unseeded rfl))
        (ih' rfl (unnamed_of_unseeded rfl))
  | invoke ends =>
    cases act_course hact unnamed with
    | aloof _ _ goesOn => exact absurd goesOn id
    | invokes => exact rfl

end Machine

end Scriptlet
