import Scriptlet.Proofs.Completion

/-!
Reading without executing. Each frame has its own places where the execution flag decides; what
they come to is that a frame without the flag does nothing but read, and hands only frames without
the flag on. From this one step it follows for whole runs that scanning has no effects.
-/

namespace Scriptlet

def Session.OnlyRead (s s' : Session) : Prop := ∃ input token, s' = { s with input, token }

theorem Session.OnlyRead.refl (s : Session) : s.OnlyRead s := ⟨s.input, s.token, rfl⟩

theorem Session.OnlyRead.trans {a b c : Session} (h : a.OnlyRead b) (k : b.OnlyRead c) :
    a.OnlyRead c := by
  obtain ⟨_, _, rfl⟩ := h
  obtain ⟨input, token, rfl⟩ := k
  exact ⟨input, token, rfl⟩

/-- The faults that a script can cause by its text alone. -/
def Fault.OfText (f : Fault) : Prop :=
  f.cause.kind = .lexical ∨ f.cause.kind = .grammar ∨ f.cause = .recursionLimit

theorem Fault.ofText_orLine {f : Fault} (h : f.OfText) (line : Nat) : (f.orLine line).OfText := by
  unfold Fault.orLine
  split <;> exact h

namespace Act

variable {α β : Type} {P : α → Prop} {Q : β → Prop}

def Reads (x : Act α) (P : α → Prop) : Prop :=
  ∀ scene, scene.session.OnlyRead (x.on scene).2.session ∧
    match (x.on scene).1 with
    | .ok a => P a
    | .error fault => fault.OfText

namespace Reads

theorem pure {a : α} (h : P a) : (pure a : Act α).Reads P :=
  fun scene => ⟨.refl scene.session, h⟩

theorem bind {x : Act α} {f : α → Act β} (hx : x.Reads P) (hf : ∀ a, P a → (f a).Reads Q) :
    (x >>= f).Reads Q := by
  intro scene
  have first := hx scene
  rw [on_bind]
  rcases h : x.on scene with ⟨fault | a, scene'⟩
  · rw [h] at first
    exact first
  · rw [h] at first
    have rest := hf a first.2 scene'
    exact ⟨first.1.trans rest.1, rest.2⟩

theorem fail {cause : Fault.Cause} (h : cause.kind = .grammar) : (fail cause : Act α).Reads P :=
  fun scene => ⟨.refl scene.session, .inr (.inl h)⟩

theorem session_bind {f : Session → Act β} (h : ∀ s, (f s).Reads Q) :
    (session >>= f).Reads Q := by
  have reading : session.Reads fun _ => True := fun scene => ⟨.refl scene.session, trivial⟩
  exact bind reading fun s _ => h s

theorem nextToken (phase : Phase) : (nextToken phase).Reads fun _ => True := by
  intro scene
  rcases next : scene.session.input.next phase with ⟨t, input⟩
  rw [on_nextToken next]
  split
  · exact ⟨⟨_, _, rfl⟩, .inl rfl⟩
  · exact ⟨⟨_, _, rfl⟩, trivial⟩

theorem next_bind {phase : Phase} {f : Token → Act β} (h : ∀ t, (f t).Reads Q) :
    (Act.nextToken phase >>= f).Reads Q :=
  bind (nextToken phase) fun t _ => h t

theorem unread_bind {t : Token} {f : Unit → Act β} (h : (f ()).Reads Q) :
    (unread t >>= f).Reads Q := by
  have reading : (unread t).Reads fun _ => True := fun _ => ⟨⟨_, _, rfl⟩, trivial⟩
  exact bind reading fun _ _ => h

theorem expect (phase : Phase) (kind : Token.Kind) : (expect phase kind).Reads fun _ => True := by
  refine next_bind fun t => ?_
  split
  · exact fail rfl
  · exact pure trivial

theorem expect_bind {phase : Phase} {kind : Token.Kind} {f : Unit → Act β}
    (h : (f ()).Reads Q) : (Act.expect phase kind >>= f).Reads Q :=
  bind (expect phase kind) fun _ _ => h

end Reads

end Act

/-- A frame that has nothing to execute: its flag is off, it has opened no block and looked no
function up. -/
def Frame.Quiet (f : Frame) : Prop :=
  f.flags.executes = false ∧
    match f.construct with
    | .block scope => scope = none
    | .call _ (.invoking target) => target = none
    | _ => True

def Move.Quiet : Move → Prop
  | .push self inner => self.Quiet ∧ inner.Quiet
  | .stay self => self.Quiet
  | .done _ => True
  | .invoke _ _ _ => False

namespace Frame

open Act

section Quiet

variable {flags : Flags} (off : flags.executes = false)
include off

theorem finishTier_reads (t : Token) (value : String) (phase : Phase) :
    (finishTier flags t value phase).Reads Move.Quiet := by
  refine .unread_bind ?_
  simp only [off, Bool.false_eq_true, if_false]
  exact .pure trivial

theorem closeCond_reads (nl : Bool) (value : String) :
    (closeCond flags nl value).Reads Move.Quiet := by
  have join : ∀ op, (joinCond flags nl value op).Quiet := fun op => by
    simp [joinCond, Move.Quiet, Frame.Quiet, newRel, off]
  refine .next_bind fun t => ?_
  split
  · exact .pure (join .and)
  · exact .pure (join .or)
  · exact finishTier_reads off t value .condDone

theorem stepCond_reads (nl : Bool) (stage : CondStage) :
    (stepCond flags nl stage).Reads Move.Quiet := by
  cases stage with
  | start seed => exact .pure (by simp [Move.Quiet, Frame.Quiet, newRel, off])
  | first => simpa [stepCond_first, off] using closeCond_reads off nl ""
  | joining left op settled => simpa [stepCond_joining, off] using closeCond_reads off nl ""

theorem closeRel_reads (nl : Bool) (value : String) :
    (closeRel flags nl value).Reads Move.Quiet := by
  refine .next_bind fun t => ?_
  split
  · split
    · exact .pure (by simp [Move.Quiet, Frame.Quiet, newExpr, off])
    · exact finishTier_reads off t value .relExpDone
  · exact finishTier_reads off t value .relExpDone

theorem stepRel_reads (nl : Bool) (stage : RelStage) :
    (stepRel flags nl stage).Reads Move.Quiet := by
  cases stage with
  | start seed => exact .pure (by simp [Move.Quiet, Frame.Quiet, newExpr, off])
  | first => simpa [stepRel_first, off] using closeRel_reads off nl ""
  | joining left op => simpa [stepRel_joining, off] using closeRel_reads off nl ""

theorem closeExpr_reads (nl : Bool) (value : String) :
    (closeExpr flags nl value).Reads Move.Quiet := by
  refine .next_bind fun t => ?_
  split
  · split
    · exact .pure (by simp [Move.Quiet, Frame.Quiet, off])
    · exact finishTier_reads off t value .exprDone
  · exact finishTier_reads off t value .exprDone

theorem closeTerm_reads (nl : Bool) (terms : Terms) (term : String) :
    (closeTerm flags nl terms term).Reads Move.Quiet := by
  simpa [closeTerm_eq, off] using closeExpr_reads off nl ""

theorem openTerm_reads (nl : Bool) (terms : Terms) (t : Token) :
    (openTerm flags nl terms t).Reads Move.Quiet := by
  unfold openTerm
  split
  · exact closeTerm_reads off nl terms t.text
  · simpa [off] using closeTerm_reads off nl terms ""
  · exact .pure (by simp [Move.Quiet, Frame.Quiet, off])
  · exact .pure (by simp [Move.Quiet, Frame.Quiet, newCond, off])
  · exact .pure (by simp [Move.Quiet, Frame.Quiet, off])
  · exact .pure (by simp [Move.Quiet, Frame.Quiet, off])
  · exact .fail rfl

theorem stepExpr_reads (nl : Bool) (terms : Terms) :
    (stepExpr flags nl terms).Reads Move.Quiet := by
  unfold stepExpr
  split
  · exact openTerm_reads off nl terms _
  · exact .next_bind fun t => openTerm_reads off nl terms t
  · refine .expect_bind ?_
    simpa [innerValue, off] using closeTerm_reads off nl terms ""
  · simpa [innerValue, off] using closeTerm_reads off nl terms ""

theorem stepCall_reads (name : String) (stage : CallStage)
    (unknown : ∀ target, stage = .invoking target → target = none) :
    (stepCall flags name stage).Reads Move.Quiet := by
  cases stage with
  | opening =>
    refine .expect_bind ?_
    simp only [off, Bool.false_eq_true, if_false, pure_bind]
    exact .pure (by simp [Move.Quiet, Frame.Quiet, off])
  | invoking target =>
    rw [unknown target rfl]
    exact .pure trivial

theorem stepArguments_reads (inner : Option Phase) :
    (stepArguments flags inner).Reads Move.Quiet := by
  have argument : (Move.push ⟨flags, .arguments⟩ (newCond flags false none)).Quiet := by
    simp [Move.Quiet, Frame.Quiet, newCond, off]
  cases inner with
  | none =>
    refine .next_bind fun t => ?_
    split
    · exact .pure trivial
    · exact .unread_bind (.pure argument)
  | some phase =>
    simp only [stepArguments, off, Bool.false_eq_true, if_false]
    refine .next_bind fun t => ?_
    split
    · exact .pure argument
    · exact .pure trivial
    · exact .fail rfl

theorem newStatement_quiet : (newStatement flags).Quiet := ⟨off, trivial⟩

theorem newCond_quiet (nl : Bool) (seed : Option Token) : (newCond flags nl seed).Quiet :=
  ⟨off, trivial⟩

theorem newSimple_quiet (nl : Bool) : (newSimple flags nl).Quiet := ⟨off, trivial⟩

theorem openStatement_reads (t : Token) : (openStatement flags t).Reads Move.Quiet := by
  unfold openStatement
  split
  · exact .pure (newStatement_quiet off)
  · exact .pure trivial
  · exact .pure trivial
  · exact .pure trivial
  · exact .pure ⟨⟨off, trivial⟩, off, rfl⟩
  · exact .pure ⟨⟨off, trivial⟩, off, trivial⟩
  · exact .pure ⟨⟨off, trivial⟩, off, trivial⟩
  · exact .pure ⟨⟨off, trivial⟩, off, trivial⟩
  · exact .pure ⟨⟨off, trivial⟩, off, trivial⟩
  iterate 6 exact .unread_bind (.pure ⟨⟨off, trivial⟩, off, trivial⟩)
  exact .fail rfl

omit off in
theorem terminate_reads : terminate.Reads Move.Quiet := by
  refine .next_bind fun t => ?_
  split
  · exact .pure trivial
  · exact .pure trivial
  · exact .unread_bind (.pure trivial)
  · exact .unread_bind (.pure trivial)
  · exact .unread_bind (.pure trivial)
  · exact .fail rfl

theorem stepStatement_reads (stage : StatementStage) (inner : Option Phase) :
    (stepStatement flags stage inner).Reads Move.Quiet := by
  cases stage with
  | start => exact .next_bind fun t => openStatement_reads off t
  | forward terminated =>
    simp only [stepStatement]
    split
    · exact .pure trivial
    · split
      · exact terminate_reads
      · exact .pure trivial

theorem stepBlock_reads (inner : Option Phase) :
    (stepBlock flags none inner).Reads Move.Quiet := by
  have again : (Move.push ⟨flags, .block none⟩ (newStatement flags)).Quiet :=
    ⟨⟨off, rfl⟩, newStatement_quiet off⟩
  cases inner with
  | none =>
    simp only [stepBlock, off, Bool.false_eq_true, if_false]
    exact .pure again
  | some phase =>
    cases phase with
    | stmtDone => exact .pure again
    | stmtBlockDone => exact .pure trivial
    | ret => exact .pure trivial
    | _ => exact .fail rfl

omit off in
theorem bodyReturns_reads (clause : Fault.Clause) (inner : Option Phase) :
    (bodyReturns clause inner).Reads fun _ => True := by
  unfold bodyReturns
  split
  · exact .pure trivial
  · exact .fail rfl
  · exact .fail rfl
  · exact .fail rfl
  · exact .pure trivial

theorem stepBranch_reads (stage : BranchStage) (inner : Option Phase) :
    (stepBranch flags stage inner).Reads Move.Quiet := by
  have branch : ∀ stage taken,
      (Move.push ⟨flags, .branch stage⟩ (newStatement (flags.executeIf taken))).Quiet :=
    fun stage taken => ⟨⟨off, trivial⟩, newStatement_quiet (by simp [off])⟩
  cases stage with
  | opening => exact .expect_bind (.pure ⟨⟨off, trivial⟩, newCond_quiet off _ _⟩)
  | afterCondition => exact .session_bind fun s => .expect_bind (.pure (branch _ _))
  | afterThen taken =>
    refine .bind (bodyReturns_reads _ inner) fun returns _ => ?_
    split
    · exact .pure trivial
    · exact .pure ⟨off, trivial⟩
  | seekElse taken =>
    refine .next_bind fun t => ?_
    split
    · exact .pure ⟨off, trivial⟩
    · exact .pure (branch _ _)
    · exact .unread_bind (.pure trivial)
  | afterElse =>
    refine .bind (bodyReturns_reads _ inner) fun returns _ => ?_
    split
    · exact .pure trivial
    · exact .pure trivial

theorem startBody_reads (l : Loop) : (startBody flags l).Reads Move.Quiet :=
  .session_bind fun _ => .pure ⟨⟨off, trivial⟩, newStatement_quiet (by simp [off])⟩

theorem startIncrement_reads (l : Loop) : (startIncrement flags l).Reads Move.Quiet := by
  refine .session_bind fun s => .next_bind fun t => ?_
  split
  · exact startBody_reads off l
  · exact .unread_bind (.pure ⟨⟨off, trivial⟩, newSimple_quiet (by simp) _⟩)

theorem startCondition_reads (l : Loop) : (startCondition flags l).Reads Move.Quiet := by
  refine .session_bind fun s => .next_bind fun t => ?_
  split
  · exact startIncrement_reads off _
  · exact .unread_bind (.pure ⟨⟨off, trivial⟩, newCond_quiet off _ _⟩)

omit off in
theorem resume_bind_reads {checkpoint : Option Input} {x : Unit → Act Move}
    (h : (x ()).Reads Move.Quiet) : (resume checkpoint >>= x).Reads Move.Quiet := by
  have reading : (resume checkpoint).Reads fun _ => True := by
    cases checkpoint with
    | none => exact .pure trivial
    | some input => exact fun _ => ⟨⟨_, _, rfl⟩, trivial⟩
  exact .bind reading fun _ _ => h

theorem repeatBody_reads (l : Loop) : (repeatBody flags l).Reads Move.Quiet :=
  resume_bind_reads (.pure ⟨⟨off, trivial⟩, newStatement_quiet off⟩)

theorem checkCondition_reads (l : Loop) : (checkCondition flags l).Reads Move.Quiet := by
  unfold checkCondition
  split
  · exact resume_bind_reads (.pure ⟨⟨off, trivial⟩, newCond_quiet off _ _⟩)
  · exact repeatBody_reads off l

omit off in
theorem leaveLoop_reads (l : Loop) : (leaveLoop l).Reads Move.Quiet :=
  resume_bind_reads (.pure trivial)

theorem afterBody_reads (l : Loop) : (afterBody flags l).Reads Move.Quiet := by
  refine .session_bind fun s => ?_
  dsimp only
  split
  · exact leaveLoop_reads _
  · split
    · exact resume_bind_reads (.pure ⟨⟨off, trivial⟩, newSimple_quiet off _⟩)
    · exact checkCondition_reads off _

theorem stepLoop_reads (l : Loop) (inner : Option Phase) :
    (stepLoop flags l inner).Reads Move.Quiet := by
  unfold stepLoop
  split
  · refine .expect_bind (.next_bind fun t => ?_)
    split
    · exact startCondition_reads off l
    · exact .pure ⟨⟨off, trivial⟩, off, trivial⟩
    · exact .unread_bind (.pure ⟨⟨off, trivial⟩, newSimple_quiet off _⟩)
  · exact .expect_bind (startCondition_reads off l)
  · exact .session_bind fun s => .expect_bind (startIncrement_reads off _)
  · exact .expect_bind (startBody_reads off l)
  · refine .bind (bodyReturns_reads _ inner) fun returns _ => ?_
    split
    · exact .pure trivial
    · exact afterBody_reads off l
  · exact checkCondition_reads off l
  · refine .session_bind fun s => ?_
    split
    · exact repeatBody_reads off _
    · exact leaveLoop_reads l

theorem stepSimple_reads (nl : Bool) (stage : SimpleStage) :
    (stepSimple flags nl stage).Reads Move.Quiet := by
  cases stage with
  | start =>
    refine .next_bind fun t => ?_
    split
    · exact .unread_bind (.pure ⟨⟨off, trivial⟩, newCond_quiet off _ _⟩)
    · refine .next_bind fun behind => ?_
      split
      · exact .pure ⟨⟨off, trivial⟩, newCond_quiet off _ _⟩
      · simp only [off, Bool.false_eq_true, if_false]
        exact .pure trivial
      · exact .unread_bind (.pure ⟨⟨off, trivial⟩, newCond_quiet off _ _⟩)
  | assigning name =>
    simp only [stepSimple, off, Bool.false_eq_true, if_false]
    exact .pure trivial
  | valued => exact .pure trivial

theorem stepDeclarations_reads (nl : Bool) (inner : Option Phase) :
    (stepDeclarations flags nl inner).Reads Move.Quiet := by
  have declare : (do
      let t ← nextToken .decList
      if t.kind ≠ .identifier then fail (.expectedName t)
      return Move.push ⟨flags, .declarations nl⟩ ⟨flags, .declaration nl t.text⟩ :
      Act Move).Reads Move.Quiet := by
    refine .next_bind fun t => ?_
    split
    · exact .bind (.fail rfl) fun _ (_ : True) => .pure ⟨⟨off, trivial⟩, off, trivial⟩
    · exact .pure ⟨⟨off, trivial⟩, off, trivial⟩
  cases inner with
  | none => exact declare
  | some phase =>
    refine .next_bind fun t => ?_
    split
    · exact declare
    · exact .unread_bind (.pure trivial)

theorem stepDeclaration_reads (nl : Bool) (name : String) (inner : Option Phase) :
    (stepDeclaration flags nl name inner).Reads Move.Quiet := by
  unfold stepDeclaration
  simp only [off, Bool.false_eq_true, if_false]
  split
  · refine .next_bind fun t => ?_
    split
    · exact .pure ⟨⟨off, trivial⟩, newCond_quiet off _ _⟩
    · exact .unread_bind (.pure trivial)
  · exact .session_bind fun s => .pure trivial

theorem stepReturning_reads (inner : Option Phase) :
    (stepReturning flags inner).Reads Move.Quiet := by
  unfold stepReturning
  simp only [off, Bool.false_eq_true, if_false]
  split
  · exact .pure trivial
  · refine .next_bind fun t => .unread_bind ?_
    split
    iterate 4 exact .pure trivial
    exact .pure ⟨⟨off, trivial⟩, newCond_quiet off _ _⟩

end Quiet

/-- One step: a frame that has nothing to execute only reads. -/
theorem step_reads {f : Frame} (quiet : f.Quiet) (inner : Option Phase) :
    (f.step inner).Reads Move.Quiet := by
  obtain ⟨flags, construct⟩ := f
  obtain ⟨off, shape⟩ := quiet
  cases construct with
  | statement stage => exact stepStatement_reads off stage inner
  | block scope =>
    obtain rfl : scope = none := shape
    exact stepBlock_reads off inner
  | branch stage => exact stepBranch_reads off stage inner
  | loop l => exact stepLoop_reads off l inner
  | simple nl stage => exact stepSimple_reads off nl stage
  | declarations nl => exact stepDeclarations_reads off nl inner
  | declaration nl name => exact stepDeclaration_reads off nl name inner
  | returning => exact stepReturning_reads off inner
  | cond nl stage => exact stepCond_reads off nl stage
  | rel nl stage => exact stepRel_reads off nl stage
  | expr nl terms => exact stepExpr_reads off nl terms
  | call name stage =>
    refine stepCall_reads off name stage fun target ht => ?_
    subst ht
    exact shape
  | arguments => exact stepArguments_reads off inner

theorem act_fault {f : Frame} {inner : Option Phase} {s : Session} {fault : Fault} {scene : Scene}
    (quiet : f.Quiet) (h : f.act inner s = (.error fault, scene)) :
    s.OnlyRead scene.session ∧ fault.OfText := by
  have reads := step_reads quiet inner { session := s }
  rw [show (f.step inner).on { session := s } = _ from h] at reads
  exact reads

theorem act_move {f : Frame} {inner : Option Phase} {s : Session} {move : Move} {scene : Scene}
    (quiet : f.Quiet) (h : f.act inner s = (.ok move, scene)) :
    s.OnlyRead scene.session ∧ move.Quiet := by
  have reads := step_reads quiet inner { session := s }
  rw [show (f.step inner).on { session := s } = _ from h] at reads
  exact reads

end Frame

namespace Machine

variable {H : Type} {host : Host H} {s : Session}

inductive Scanning (s : Session) : Config H .phase → Prop where
  | drive {s' state top below inner} : s.OnlyRead { s' with depth := s.depth } → top.Quiet →
      (∀ f ∈ below, f.Quiet) → Scanning s ⟨s', state, .drive s.depth top below inner .idle⟩
  | ended {s' state answer} : s.OnlyRead s' → (∀ fault, answer = .error fault → fault.OfText) →
      Scanning s ⟨s', state, .deliver .phase answer .idle⟩

theorem scanning_completed {s' : Session} {state : H} {below : List Frame}
    {r : Except Fault Phase} (kept : s.OnlyRead { s' with depth := s.depth })
    (quiet : ∀ f ∈ below, f.Quiet) (text : ∀ fault, r = .error fault → fault.OfText) :
    Scanning s (completed s.depth below .idle r s' state) := by
  cases r with
  | error fault =>
    refine .ended kept fun fault' h => ?_
    cases h
    exact Fault.ofText_orLine (text fault rfl) _
  | ok phase =>
    cases below with
    | nil => exact .ended kept (by simp)
    | cons next rest =>
      exact .drive kept (quiet next (by simp)) fun f hf => quiet f (by simp [hf])

/-- A step keeps a scan a scan and calls nothing. -/
theorem step_scanning {c next : Config H .phase} (h : Scanning s c)
    (st : step host c = .inr next) : Scanning s next ∧ c.call? host = none := by
  cases h with
  | ended => simp [step_deliver, deliverStep] at st
  | @drive s' state top below inner kept quiet quietBelow =>
    have keeps : ∀ {s₁ : Session}, s'.OnlyRead s₁ → s.OnlyRead { s₁ with depth := s.depth } := by
      rintro _ ⟨input, token, rfl⟩
      exact kept.trans ⟨input, token, rfl⟩
    rcases hact : top.act inner s' with ⟨fault | move, scene⟩
    · obtain ⟨read, text⟩ := Frame.act_fault quiet hact
      rw [step_fault hact, Sum.inr.injEq] at st
      subst st
      refine ⟨scanning_completed (keeps read) quietBelow ?_, call?_other hact (by simp)⟩
      rintro _ ⟨⟩
      exact text
    · obtain ⟨read, quietMove⟩ := Frame.act_move quiet hact
      have kept := keeps read
      cases move with
      | invoke target args saved => exact absurd quietMove id
      | done phase =>
        rw [step_done hact, Sum.inr.injEq] at st
        subst st
        exact ⟨scanning_completed kept quietBelow (by simp), call?_other hact (by simp)⟩
      | stay self =>
        rw [step_stay hact, Sum.inr.injEq] at st
        subst st
        exact ⟨.drive kept quietMove quietBelow, call?_other hact (by simp)⟩
      | push self child =>
        refine ⟨?_, call?_other hact (by simp)⟩
        by_cases room : scene.session.depth < scene.session.limits.maxDepth
        · rw [step_push hact room, Sum.inr.injEq] at st
          subst st
          refine .drive kept quietMove.2 ?_
          intro f hf
          rcases List.mem_cons.mp hf with rfl | hf
          · exact quietMove.1
          · exact quietBelow f hf
        · rw [step_limit hact (Nat.not_lt.mp room), Sum.inr.injEq] at st
          subst st
          refine scanning_completed kept quietBelow ?_
          rintro _ ⟨⟩
          exact .inr (.inr rfl)

/-- A run that starts as a scan calls nothing, and ends with nothing done but reading. -/
theorem run_scanning {n : Nat} {c : Config H .phase} (h : Scanning s c) :
    calls host n c = [] ∧ ∀ fin, run host n c = some fin →
      s.OnlyRead fin.session ∧ ∀ fault, fin.answer = .error fault → fault.OfText := by
  induction n generalizing c with
  | zero => exact ⟨rfl, by simp [run]⟩
  | succ n ih =>
    cases st : step host c with
    | inr next =>
      obtain ⟨scans, none⟩ := step_scanning h st
      simpa [calls, run, st, none] using ih scans
    | inl fin =>
      refine ⟨by simp [calls, st], fun fin' hfin => ?_⟩
      obtain rfl : fin = fin' := by simpa [run, st] using hfin
      cases h with
      | drive => simp [step_drive] at st
      | ended read text =>
        obtain rfl := Sum.inl.inj st
        exact ⟨read, text⟩

theorem start_quiet {start : Phase} {frame : Frame} (h : Frame.start .none start = .ok frame) :
    frame.Quiet := by
  cases start <;> simp only [Frame.start, Except.ok.injEq, reduceCtorEq] at h <;>
    exact h ▸ ⟨rfl, trivial⟩

theorem beginParse_scanning (s : Session) (state : H) (start : Phase) :
    let begun := beginParse s start .none (.idle : Waiting H .phase .phase)
    Scanning s ⟨begun.1, state, begun.2⟩ := by
  intro begun
  rcases Session.begins_or_refused s start .none with ⟨room, frame, hstart⟩ | refused
  · have hbegun : begun = _ := Session.beginParse_start room hstart .idle
    rw [hbegun]
    exact .drive (.refl s) (start_quiet hstart) (by simp)
  · obtain ⟨fault, hfault, hbegin⟩ := Session.beginParse_refused refused
    have hbegun : begun = _ := hbegin .idle
    rw [hbegun]
    refine .ended (.refl s) ?_
    rintro _ ⟨⟩
    rcases hfault with limit | start
    · exact .inr (.inr limit)
    · exact .inr (.inl (by rw [start]; rfl))

/-- Scanning a construct has no effects: no native function is called, and whether the scan
succeeds or fails it leaves everything of the session as it was but the place reached in the
script. If it fails, it is the text that is at fault, or the depth of its nesting. -/
theorem parse_none_effects (host : Host H) (fuel : Nat) (s : Session) (state : H) (start : Phase) :
    s.parseCalls host fuel state start .none = [] ∧
      ∀ fin, s.parse host fuel state start .none = some fin →
        (∃ input token, fin.session = { s with input, token }) ∧
        ∀ fault, fin.answer = .error fault →
          fault.cause.kind = .lexical ∨ fault.cause.kind = .grammar ∨
            fault.cause = .recursionLimit :=
  run_scanning (beginParse_scanning s state start)

theorem parse_none_effects_call :
    let host : Host Unit := { natives := fun _ _ => .raise { cause := .divideByZero } }
    let s : Session := { id := ⟨0, 1⟩, input := .ofScript "if (f(x = 1)) x = 2;" }
    ∃ fin fault, s.parse host 100 () .stmt .none = some fin ∧ fin.answer = .error fault ∧
      (∃ input token, fin.session = { s with input, token }) ∧
        (fault.cause.kind = .lexical ∨ fault.cause.kind = .grammar ∨
          fault.cause = .recursionLimit) := by
  intro host s
  have ends : (s.parse host 100 () .stmt .none).map (·.answer.toOption) = some none := by
    decide +kernel
  obtain ⟨⟨answer, s', _⟩, scanned, failed⟩ := Option.map_eq_some_iff.mp ends
  cases answer with
  | ok phase => cases failed
  | error fault =>
    obtain ⟨read, text⟩ := (parse_none_effects host 100 s () .stmt).2 _ scanned
    exact ⟨_, fault, scanned, rfl, read, text fault rfl⟩
end Machine

end Scriptlet
