import Scriptlet.Proofs.Causes
import Scriptlet.Proofs.Sequence
import Scriptlet.Proofs.Spending

/-!
Watching the reader. Something is watched of the reader of a script: what holds between two tokens,
behind a token just taken and behind a name, and what a fault tells of the place it arose in. One
walk through the frames shows that each of them keeps it, hands it on to the frames that act next,
and finishes in a phase of its kind; so do a completed frame, a parsed statement and a script.
-/

namespace Scriptlet

/-- What is watched of a reader while frames act. -/
structure Watch where
  here : Input → Prop
  /-- Behind a token that has just been taken. -/
  took : Token → Input → Prop
  /-- Behind a name that is being read. -/
  named : String → Input → Prop
  tells : Fault → Input → Prop
  next {i j t phase} : here i → i.next phase = (t, j) → t.kind ≠ .error → took t j
  malformed {i j t phase} : here i → i.next phase = (t, j) → t.kind = .error →
    tells { cause := .malformed t.text, line := j.line } j
  taken {t i} : took t i → here i
  unread {t i} : took t i → here (i.unread t)
  name {t i} : took t i → t.kind = .identifier → named t.text i
  /-- A name is still being read when the token behind it has been taken, and perhaps put back. -/
  behind {t u i j nl} : took t i → t.kind = .identifier → i.next (lookahead nl) = (u, j) →
    u.kind ≠ .error → named t.text j ∧ named t.text (j.unread u)
  unbound {name i} : here i → named name i → tells { cause := .undefinedVariable name } i
  plain {cause i} : here i → cause.plain = true → tells { cause } i

/-! ### Actions -/

namespace Act

variable {α β : Type}

def Landed (W : Watch) (Q : α → Input → Prop) : Except Fault α × Scene → Prop
  | (.ok a, last) => Q a last.session.input
  | (.error fault, last) => W.tells fault last.session.input

def Lands (W : Watch) (P : Input → Prop) (x : Act α) (Q : α → Input → Prop) : Prop :=
  ∀ scene : Scene, P scene.session.input → Landed W Q (x.on scene)

namespace Lands

variable {W : Watch} {P : Input → Prop} {Q : β → Input → Prop}

theorem pure {Q : α → Input → Prop} {a : α} (h : ∀ i, P i → Q a i) :
    Lands W P (pure a : Act α) Q :=
  fun _ here => h _ here

theorem fail {Q : α → Input → Prop} {cause : Fault.Cause} (h : cause.plain = true) :
    Lands W W.here (fail cause : Act α) Q :=
  fun _ here => W.plain here h

theorem bind {R : α → Input → Prop} {x : Act α} {f : α → Act β} (hx : Lands W P x R)
    (hf : ∀ a, Lands W (R a) (f a) Q) : Lands W P (x >>= f) Q := by
  intro scene here
  have landed := hx scene here
  rw [on_bind]
  rcases first : x.on scene with ⟨fault | a, mid⟩
  · rw [first] at landed
    exact landed
  · rw [first] at landed
    exact hf a mid landed

theorem weaken {R : Input → Prop} {x : Act β} (h : Lands W R x Q) (le : ∀ i, P i → R i) :
    Lands W P x Q :=
  fun scene here => h scene (le _ here)

theorem ite {p : Prop} [Decidable p] {x y : Act β} (hx : p → Lands W P x Q)
    (hy : ¬p → Lands W P y Q) : Lands W P (if p then x else y) Q := by
  split
  · exact hx ‹_›
  · exact hy ‹_›

theorem session_bind {f : Session → Act β} (h : ∀ s : Session, P s.input → Lands W P (f s) Q) :
    Lands W P (session >>= f) Q :=
  fun scene here => h scene.session here scene here

/-! Actions that do not read -/

theorem ofExcept {r : Except Fault.Cause α} (h : FailsPlainly r) :
    Lands W W.here (ofExcept r) fun _ => W.here := by
  cases r with
  | ok a => exact pure fun _ here => here
  | error cause => exact fail (h cause rfl).1

theorem update {g : Session → Session} (h : ∀ s, (g s).input = s.input) :
    Lands W P (update g) fun _ => P :=
  fun scene here => show P (g scene.session).input from (h scene.session).symm ▸ here

theorem emit (e : Event) : Lands W P (emit e) fun _ => P := fun _ here => here

theorem takeResult : Lands W P takeResult fun _ => P := fun _ here => here

theorem setResult (value : String) : Lands W P (setResult value) fun _ => P := update fun _ => rfl

theorem readVariable (name : String) :
    Lands W (fun i => W.here i ∧ W.named name i) (readVariable name) fun _ => W.here := by
  intro scene ⟨here, named⟩
  simp only [Act.readVariable, on_bind, on_session]
  split
  · exact here
  · exact W.unbound here named

theorem openBlock : Lands W P openBlock fun _ => P := fun _ here => here

theorem setSession {s' : Session} (h : P s'.input) : Lands W P (setSession s') fun _ => P :=
  fun _ _ => h

theorem closeBlock (id : BlockId) : Lands W W.here (closeBlock id) fun _ => W.here :=
  session_bind fun s here => bind (ofExcept (s.scopes.close_fails id)) fun _ => setSession here

theorem value {flags : Flags} {x : Act String} (h : Lands W P x fun _ => P) :
    Lands W P (if flags.executes then x else Pure.pure "") fun _ => P :=
  ite (fun _ => h) fun _ => pure fun _ here => here

/-! Reading -/

theorem setInput_bind {i : Input} {P' : Input → Prop} {f : Unit → Act β} (there : P' i)
    (h : Lands W P' (f ()) Q) :
    Lands W P (Act.update (fun s => { s with input := i }) >>= f) Q :=
  fun _ _ => h _ there

/-- What was known in front of a token is known of the reader that has taken it. -/
theorem read_bind {phase : Phase} {f : Token → Act β} (le : ∀ i, P i → W.here i)
    (h : ∀ t, Lands W (fun j => W.took t j ∧ t.kind ≠ .error ∧ ∃ i, P i ∧ i.next phase = (t, j))
      (f t) Q) : Lands W P (nextToken phase >>= f) Q := by
  refine bind (R := fun t j => W.took t j ∧ t.kind ≠ .error ∧ ∃ i, P i ∧ i.next phase = (t, j))
    (fun scene here => ?_) h
  rcases read : scene.session.input.next phase with ⟨t, j⟩
  rw [on_nextToken read]
  by_cases malformed : t.kind = .error
  · rw [if_pos malformed]
    exact W.malformed (le _ here) read malformed
  · rw [if_neg malformed]
    exact ⟨W.next (le _ here) read malformed, malformed, _, here, read⟩

theorem next_bind {phase : Phase} {f : Token → Act β} (h : ∀ t, Lands W (W.took t) (f t) Q) :
    Lands W W.here (nextToken phase >>= f) Q :=
  read_bind (fun _ here => here) fun t => (h t).weaken fun _ took => took.1

theorem taken {t : Token} {x : Act β} (h : Lands W W.here x Q) : Lands W (W.took t) x Q :=
  h.weaken fun _ took => W.taken took

theorem unread_bind {t : Token} {f : Unit → Act β} (h : Lands W W.here (f ()) Q) :
    Lands W (W.took t) (unread t >>= f) Q :=
  fun _ took => h _ (W.unread took)

theorem expect_bind {phase : Phase} {kind : Token.Kind} {f : Unit → Act β}
    (h : Lands W W.here (f ()) Q) : Lands W W.here (expect phase kind >>= f) Q := by
  rw [expect_bind_eq]
  exact next_bind fun t => taken (ite (fun _ => fail rfl) fun _ => h)

end Lands

end Act

/-! ### Frames -/

namespace Frame

def ends (f : Frame) : List Phase :=
  match f.construct with
  | .statement .start => [.stmtDone, .stmtBlockDone, .eof]
  | .statement (.forward _) | .branch _ | .loop _ | .returning => [.stmtDone]
  | .block _ => [.stmtBlockDone]
  | .declarations _ => [.decListDone]
  | .declaration _ _ => [.decDone]
  | .cond _ _ => [.condDone]
  | .rel _ _ => [.relExpDone]
  | .simple _ _ | .expr _ _ | .call _ _ => [.exprDone]
  | .arguments => [.argListDone]

theorem ret_not_mem_ends (f : Frame) : .ret ∉ f.ends := by
  unfold ends
  split <;> simp

def Finishes (f : Frame) (phase : Phase) : Prop :=
  phase ∈ f.ends ∨ phase = .ret ∧ f.flags.executes = true

theorem Finishes.executes {f : Frame} (h : f.Finishes .ret) : f.flags.executes = true := by
  rcases h with plain | ⟨-, executes⟩
  · exact absurd plain f.ret_not_mem_ends
  · exact executes

/-- Only a statement finds the end of the script in its place. -/
theorem Finishes.mayEnd {f : Frame} (h : f.Finishes .eof) : f.MayEnd := by
  obtain ⟨flags, construct⟩ := f
  cases construct with
  | statement stage =>
    cases stage with
    | start => rfl
    | forward terminated => simp [Finishes, ends] at h
  | _ => simp [Finishes, ends] at h

theorem newStatement_finishes {flags : Flags} {phase : Phase} :
    (newStatement flags).Finishes phase ↔ phase = .stmtDone ∨ phase = .stmtBlockDone ∨
      phase = .eof ∨ phase = .ret ∧ flags.executes = true := by
  simp [Finishes, ends, newStatement, or_assoc]

structure Loop.Anchored (W : Watch) (l : Loop) : Prop where
  condition : ∀ i, l.conditionAt = some i → W.here i
  increment : ∀ i, l.incrementAt = some i → W.here i
  body : ∀ i, l.bodyAt = some i → W.here i
  last : ∀ i, l.endAt = some i → W.here i

def Anchored (W : Watch) (f : Frame) : Prop :=
  match f.construct with
  | .loop l => l.Anchored W
  | _ => True

def seed? (f : Frame) : Option Token :=
  match f.construct with
  | .cond _ (.start seed) | .rel _ (.start seed) | .expr _ { stage := .term seed, .. } => seed
  | _ => none

def Primed (W : Watch) (f : Frame) (i : Input) : Prop :=
  ∀ t, f.seed? = some t → t.kind = .identifier → W.named t.text i

/-- Who goes on in place of a frame. -/
structure Heir (W : Watch) (f heir : Frame) : Prop where
  flags : heir.flags = f.flags
  ends : heir.ends ⊆ f.ends
  anchored : heir.Anchored W
  unseeded : heir.seed? = none

structure Bears (W : Watch) (f inner : Frame) (i : Input) : Prop where
  anchored : inner.Anchored W
  primed : inner.Primed W i
  executes : inner.flags.executes = true → f.flags.executes = true

end Frame

def Move.Heads (W : Watch) (f : Frame) : Move → Input → Prop
  | .done phase, _ => f.Finishes phase
  | .stay self, _ => f.Heir W self
  | .push self inner, i => f.Heir W self ∧ ¬ self.MayEnd ∧ f.Bears W inner i
  | .invoke _ _ _, _ => f.Finishes .exprDone

namespace Frame

open Act

variable {W : Watch} {flags : Flags}

/-- Who has no name to start with may go on anywhere. -/
theorem primed_of_unseeded {f : Frame} (unseeded : f.seed? = none) (i : Input) : f.Primed W i := by
  intro t seeded
  rw [unseeded] at seeded
  cases seeded

theorem Heir.primed {f self : Frame} (h : f.Heir W self) (i : Input) : self.Primed W i :=
  primed_of_unseeded h.unseeded i

/-- Who waits for a frame that returned executes. -/
theorem Bears.returned {f self inner : Frame} {phase : Phase} {i : Input} (h : f.Bears W inner i)
    (heir : f.Heir W self) (finishes : inner.Finishes phase) :
    some phase = some .ret → self.flags.executes = true := by
  rintro ⟨⟩
  rw [heir.flags]
  exact h.executes finishes.executes

abbrev HeadsFor (W : Watch) (f : Frame) (P : Input → Prop) (x : Act Move) : Prop :=
  Act.Lands W P x fun move i => move.Heads W f i ∧ W.here i

theorem done_heads {f : Frame} {phase : Phase} (h : f.Finishes phase) :
    f.HeadsFor W W.here (pure (.done phase)) :=
  .pure fun _ here => ⟨h, here⟩

theorem stay_heads {f self : Frame} (heir : f.Heir W self) :
    f.HeadsFor W W.here (pure (.stay self)) :=
  .pure fun _ here => ⟨heir, here⟩

theorem push_heads {f self inner : Frame} (heir : f.Heir W self) (waits : ¬ self.MayEnd)
    (anchored : inner.Anchored W) (unseeded : inner.seed? = none)
    (executes : inner.flags.executes = true → f.flags.executes = true) :
    f.HeadsFor W W.here (pure (.push self inner)) :=
  .pure fun i here =>
    ⟨⟨heir, waits, anchored, primed_of_unseeded unseeded i, executes⟩, here⟩

theorem finishTier_heads {f : Frame} (t : Token) (value : String) {phase : Phase}
    (h : phase ∈ f.ends) :
    f.HeadsFor W (W.took t) (finishTier flags t value phase) := by
  refine .unread_bind (.ite (fun _ => .bind (.setResult value) fun _ => ?_) fun _ => ?_)
  all_goals exact done_heads (.inl h)

theorem closeCond_heads (nl : Bool) (stage : CondStage) (value : String) :
    HeadsFor W ⟨flags, .cond nl stage⟩ W.here (closeCond flags nl value) := by
  have joins : ∀ op, HeadsFor W ⟨flags, .cond nl stage⟩ W.here
      (pure (joinCond flags nl value op)) := by
    refine fun op => push_heads ⟨rfl, fun _ h => h, trivial, rfl⟩ nofun trivial rfl ?_
    simp only [newRel, Flags.executes_executeIf, Bool.and_eq_true]
    exact fun h => h.1
  refine .next_bind fun t => ?_
  split
  · exact .taken (joins .and)
  · exact .taken (joins .or)
  · exact finishTier_heads t value (by simp [ends])

theorem stepCond_heads (nl : Bool) (stage : CondStage) :
    HeadsFor W ⟨flags, .cond nl stage⟩
      (fun i => W.here i ∧ Primed W ⟨flags, .cond nl stage⟩ i) (stepCond flags nl stage) := by
  cases stage with
  | start seed =>
    exact .pure fun i ⟨here, primed⟩ =>
      ⟨⟨⟨rfl, fun _ h => h, trivial, rfl⟩, nofun, ⟨trivial, primed, id⟩⟩, here⟩
  | first =>
    refine .weaken (R := W.here) ?_ fun _ start => start.1
    rw [stepCond_first]
    exact .bind (.value .takeResult) fun value => closeCond_heads nl .first value
  | joining left op settled =>
    refine .weaken (R := W.here) ?_ fun _ start => start.1
    rw [stepCond_joining]
    refine .bind (.value (.ite (fun _ => ?_) fun _ => ?_)) fun value =>
      closeCond_heads nl (.joining left op settled) value
    · exact .pure fun _ here => here
    · exact .session_bind fun s _ => .ofExcept (Value.logical_fails op left _)

theorem closeRel_heads (nl : Bool) (stage : RelStage) (value : String) :
    HeadsFor W ⟨flags, .rel nl stage⟩ W.here (closeRel flags nl value) := by
  refine .next_bind fun t => ?_
  split
  · refine .ite (fun _ => .taken ?_) fun _ => finishTier_heads t value (by simp [ends])
    exact push_heads ⟨rfl, fun _ h => h, trivial, rfl⟩ nofun trivial rfl id
  · exact finishTier_heads t value (by simp [ends])

theorem stepRel_heads (nl : Bool) (stage : RelStage) :
    HeadsFor W ⟨flags, .rel nl stage⟩
      (fun i => W.here i ∧ Primed W ⟨flags, .rel nl stage⟩ i) (stepRel flags nl stage) := by
  cases stage with
  | start seed =>
    exact .pure fun i ⟨here, primed⟩ =>
      ⟨⟨⟨rfl, fun _ h => h, trivial, rfl⟩, nofun, ⟨trivial, primed, id⟩⟩, here⟩
  | first =>
    refine .weaken (R := W.here) ?_ fun _ start => start.1
    rw [stepRel_first]
    exact .bind (.value .takeResult) fun value => closeRel_heads nl .first value
  | joining left op =>
    refine .weaken (R := W.here) ?_ fun _ start => start.1
    rw [stepRel_joining]
    refine .bind (.value (.session_bind fun s _ => ?_)) fun value =>
      closeRel_heads nl (.joining left op) value
    exact .bind (.ofExcept (Value.relate_fails op left _)) fun _ => .pure fun _ here => here

theorem closeTerm_heads (nl : Bool) (terms terms' : Terms) (term : String) :
    HeadsFor W ⟨flags, .expr nl terms⟩ W.here (closeTerm flags nl terms' term) := by
  rw [closeTerm_eq]
  refine .bind (.value (.ofExcept (combine_fails terms' term))) fun value => .next_bind fun t => ?_
  split
  · refine .ite (fun _ => .taken ?_) fun _ => finishTier_heads t value (by simp [ends])
    exact stay_heads ⟨rfl, fun _ h => h, trivial, rfl⟩
  · exact finishTier_heads t value (by simp [ends])

theorem openTerm_heads (nl : Bool) (terms : Terms) (t : Token) :
    HeadsFor W ⟨flags, .expr nl terms⟩
      (fun i => W.here i ∧ (t.kind = .identifier → W.named t.text i))
      (openTerm flags nl terms t) := by
  by_cases name : t.kind = .identifier
  · obtain ⟨kind, text⟩ := t
    obtain rfl : kind = .identifier := name
    rw [openTerm_identifier]
    refine .bind (R := fun _ => W.here) (.ite (fun _ => ?_) fun _ => ?_) fun value => ?_
    · exact .weaken (.readVariable text) fun _ start => ⟨start.1, start.2 rfl⟩
    · exact .pure fun _ start => start.1
    · exact closeTerm_heads nl terms terms value
  · refine .weaken (R := W.here) ?_ fun _ start => start.1
    unfold openTerm
    split
    · exact closeTerm_heads nl terms terms t.text
    · exact absurd ‹_› name
    · exact push_heads ⟨rfl, fun _ h => h, trivial, rfl⟩ nofun trivial rfl id
    · exact push_heads ⟨rfl, fun _ h => h, trivial, rfl⟩ nofun trivial rfl id
    · exact stay_heads ⟨rfl, fun _ h => h, trivial, rfl⟩
    · exact stay_heads ⟨rfl, fun _ h => h, trivial, rfl⟩
    · exact .fail rfl

theorem stepExpr_heads (nl : Bool) (terms : Terms) :
    HeadsFor W ⟨flags, .expr nl terms⟩
      (fun i => W.here i ∧ Primed W ⟨flags, .expr nl terms⟩ i) (stepExpr flags nl terms) := by
  have close : HeadsFor W ⟨flags, .expr nl terms⟩ W.here
      (innerValue flags >>= closeTerm flags nl terms) :=
    .bind (.value .takeResult) fun value => closeTerm_heads nl terms terms value
  obtain ⟨stage, left, unary⟩ := terms
  cases stage with
  | term seed =>
    cases seed with
    | some t =>
      exact .weaken (openTerm_heads nl _ t) fun _ start => ⟨start.1, start.2 t rfl⟩
    | none =>
      refine .weaken (R := W.here) (.next_bind fun t => ?_) fun _ start => start.1
      exact .weaken (openTerm_heads nl _ t) fun _ took => ⟨W.taken took, W.name took⟩
  | afterParen => exact .weaken (.expect_bind close) fun _ start => start.1
  | afterCall => exact .weaken close fun _ start => start.1

theorem stepCall_heads (name : String) (stage : CallStage) :
    HeadsFor W ⟨flags, .call name stage⟩ W.here (stepCall flags name stage) := by
  have arguments : ∀ target, HeadsFor W ⟨flags, .call name stage⟩ W.here
      (pure (.push ⟨flags, .call name (.invoking target)⟩ ⟨flags, .arguments⟩)) := fun target =>
    push_heads ⟨rfl, fun _ h => h, trivial, rfl⟩ nofun trivial rfl id
  unfold stepCall
  split
  · refine .expect_bind (.ite (fun _ => .session_bind fun s here => ?_) fun _ => arguments none)
    split
    · exact .bind (.setSession here) fun _ => arguments _
    · exact .fail rfl
  · exact done_heads (.inl (by simp [ends]))
  · refine .session_bind fun s _ => .bind (.emit _) fun _ => .bind (.setResult "") fun _ => ?_
    exact .pure fun i here => ⟨.inl (by simp [ends]), here⟩

theorem stepArguments_heads (inner : Option Phase) :
    HeadsFor W ⟨flags, .arguments⟩ W.here (stepArguments flags inner) := by
  have argument : HeadsFor W ⟨flags, .arguments⟩ W.here
      (pure (.push ⟨flags, .arguments⟩ (newCond flags false none))) :=
    push_heads ⟨rfl, fun _ h => h, trivial, rfl⟩ nofun trivial rfl id
  have done : HeadsFor W ⟨flags, .arguments⟩ W.here (pure (.done .argListDone)) :=
    done_heads (.inl (by simp [ends]))
  cases inner with
  | none => exact .next_bind fun t => .ite (fun _ => .taken done) fun _ => .unread_bind argument
  | some phase =>
    have next : HeadsFor W ⟨flags, .arguments⟩ W.here (afterArgument flags) := by
      refine .next_bind fun t => ?_
      split
      · exact .taken argument
      · exact .taken done
      · exact .taken (.fail rfl)
    refine .ite (fun _ => .bind ?_ fun _ => next) fun _ => next
    exact .bind .takeResult fun _ => .update fun _ => rfl

/-! Statements -/

theorem openStatement_heads (t : Token) :
    HeadsFor W ⟨flags, .statement .start⟩ (W.took t) (openStatement flags t) := by
  have forward : ∀ (inner : Construct) terminated,
      Anchored W ⟨flags, inner⟩ → seed? ⟨flags, inner⟩ = none →
      HeadsFor W ⟨flags, .statement .start⟩ W.here
        (pure (.push ⟨flags, .statement (.forward terminated)⟩ ⟨flags, inner⟩)) :=
    fun inner terminated anchored unseeded =>
      push_heads ⟨rfl, by simp [ends], trivial, rfl⟩ nofun anchored unseeded id
  unfold openStatement
  split
  · exact .taken (stay_heads ⟨rfl, fun _ h => h, trivial, rfl⟩)
  · exact .taken (done_heads (.inl (by simp [ends])))
  · exact .taken (done_heads (.inl (by simp [ends])))
  · exact .taken (done_heads (.inl (by simp [ends])))
  · exact .taken (forward _ _ trivial rfl)
  · exact .taken (forward _ _ trivial rfl)
  · exact .taken (forward _ _ ⟨nofun, nofun, nofun, nofun⟩ rfl)
  · exact .taken (forward _ _ trivial rfl)
  · exact .taken (forward _ _ trivial rfl)
  iterate 6 exact .unread_bind (forward _ _ trivial rfl)
  exact .taken (.fail rfl)

theorem terminate_heads :
    HeadsFor W ⟨flags, .statement (.forward true)⟩ W.here terminate := by
  have done : HeadsFor W ⟨flags, .statement (.forward true)⟩ W.here
      (pure (.done .stmtDone)) := done_heads (.inl (by simp [ends]))
  refine .next_bind fun t => ?_
  split
  · exact .taken done
  · exact .taken done
  iterate 3 exact .unread_bind done
  exact .taken (.fail rfl)

theorem stepStatement_heads (stage : StatementStage) {inner : Option Phase}
    (executes : inner = some .ret → flags.executes = true) :
    HeadsFor W ⟨flags, .statement stage⟩ W.here
      (stepStatement flags stage inner) := by
  cases stage with
  | start => exact .next_bind fun t => openStatement_heads t
  | forward terminated =>
    refine .ite (fun returns => done_heads (.inr ⟨rfl, executes returns⟩)) fun _ => ?_
    cases terminated with
    | true => exact terminate_heads
    | false => exact done_heads (.inl (by simp [ends]))

theorem stepBlock_heads (scope : Option BlockId) {inner : Option Phase}
    (executes : inner = some .ret → flags.executes = true) :
    HeadsFor W ⟨flags, .block scope⟩ W.here (stepBlock flags scope inner) := by
  have again : ∀ scope', HeadsFor W ⟨flags, .block scope⟩ W.here
      (pure (.push ⟨flags, .block scope'⟩ (newStatement flags))) := fun scope' =>
    push_heads ⟨rfl, fun _ h => h, trivial, rfl⟩ nofun trivial rfl id
  have leave : ∀ phase, Finishes ⟨flags, .block scope⟩ phase →
      HeadsFor W ⟨flags, .block scope⟩ W.here (leaveBlock scope phase) := by
    intro phase finishes
    cases scope with
    | none => exact done_heads finishes
    | some id => exact .bind (.closeBlock id) fun _ => done_heads finishes
  cases inner with
  | none =>
    refine .ite (fun _ => ?_) fun _ => again none
    exact .bind .openBlock fun id => .bind (.emit _) fun _ => again (some id)
  | some phase =>
    cases phase with
    | stmtDone => exact again scope
    | stmtBlockDone => exact leave .stmtBlockDone (.inl (by simp [ends]))
    | ret => exact leave .ret (.inr ⟨rfl, executes rfl⟩)
    | _ => exact .fail rfl

/-- A body that returns has been executed. -/
theorem bodyReturns_heads (clause : Fault.Clause) {inner : Option Phase}
    (executes : inner = some .ret → flags.executes = true) :
    Lands W W.here (bodyReturns clause inner) fun returns i =>
      W.here i ∧ (returns = true → flags.executes = true) := by
  unfold bodyReturns
  split
  · exact .pure fun _ here => ⟨here, fun _ => executes rfl⟩
  iterate 3 exact .fail rfl
  · exact .pure fun _ here => ⟨here, nofun⟩

/-- Behind a body the frame hands a `return` on, or else goes on. -/
theorem afterBody_bind_heads {f : Frame} (clause : Fault.Clause) {inner : Option Phase}
    {x : Act Move} (executes : inner = some .ret → f.flags.executes = true)
    (h : f.HeadsFor W W.here x) :
    f.HeadsFor W W.here
      (bodyReturns clause inner >>= fun returns => if returns then pure (.done .ret) else x) := by
  refine .bind (bodyReturns_heads clause executes) fun returns => .ite (fun yes => ?_) fun _ => ?_
  · exact .pure fun _ ⟨here, held⟩ => ⟨.inr ⟨rfl, held yes⟩, here⟩
  · exact h.weaken fun _ here => here.1

theorem stepBranch_heads (stage : BranchStage) {inner : Option Phase}
    (executes : inner = some .ret → flags.executes = true) :
    HeadsFor W ⟨flags, .branch stage⟩ W.here (stepBranch flags stage inner) := by
  have body : ∀ self taken, HeadsFor W ⟨flags, .branch stage⟩ W.here
      (pure (.push ⟨flags, .branch self⟩ (newStatement (flags.executeIf taken)))) := by
    refine fun self taken => push_heads ⟨rfl, fun _ h => h, trivial, rfl⟩ nofun trivial rfl ?_
    simp only [newStatement, Flags.executes_executeIf, Bool.and_eq_true]
    exact fun h => h.1
  have stay : ∀ taken, HeadsFor W ⟨flags, .branch stage⟩ W.here
      (pure (.stay ⟨flags, .branch (.seekElse taken)⟩)) := fun taken =>
    stay_heads ⟨rfl, fun _ h => h, trivial, rfl⟩
  have done : HeadsFor W ⟨flags, .branch stage⟩ W.here (pure (.done .stmtDone)) :=
    done_heads (.inl (by simp [ends]))
  cases stage with
  | opening =>
    refine .expect_bind ?_
    exact push_heads ⟨rfl, fun _ h => h, trivial, rfl⟩ (by simp [MayEnd]) trivial rfl id
  | afterCondition => exact .session_bind fun s _ => .expect_bind (body _ _)
  | afterThen taken => exact afterBody_bind_heads .ifClause executes (stay taken)
  | seekElse taken =>
    refine .next_bind fun t => ?_
    split
    · exact .taken (stay taken)
    · exact .taken (body _ _)
    · exact .unread_bind done
  | afterElse => exact afterBody_bind_heads .elseClause executes done

/-! Loops -/

section Loop

variable {l : Loop} (l₀ : Loop) (anchored : l.Anchored W)
include anchored

theorem startBody_heads :
    HeadsFor W ⟨flags, .loop l₀⟩ W.here (startBody flags l) := by
  refine .session_bind fun s here =>
    push_heads ⟨rfl, fun _ h => h, { anchored with body := ?_ }, rfl⟩ nofun trivial rfl ?_
  · rintro _ ⟨⟩
    exact here
  · simp only [newStatement, Flags.executes_executeIf, Bool.and_eq_true]
    exact fun h => h.1

theorem startIncrement_heads :
    HeadsFor W ⟨flags, .loop l₀⟩ W.here (startIncrement flags l) := by
  refine .session_bind fun s here => .next_bind fun t => .ite (fun _ => ?_) fun _ => ?_
  · exact .taken (startBody_heads l₀ anchored)
  · refine .unread_bind (push_heads
      ⟨rfl, fun _ h => h, { anchored with increment := ?_ }, rfl⟩ nofun trivial rfl ?_)
    · rintro _ ⟨⟩
      exact here
    · simp [newSimple]

theorem startCondition_heads :
    HeadsFor W ⟨flags, .loop l₀⟩ W.here (startCondition flags l) := by
  refine .session_bind fun s here => .next_bind fun t => .ite (fun _ => ?_) fun _ => ?_
  · exact .taken (startIncrement_heads (l := { l with running := flags.executes }) l₀
      { anchored with })
  · refine .unread_bind (push_heads
      ⟨rfl, fun _ h => h, { anchored with condition := ?_ }, rfl⟩ nofun trivial rfl id)
    rintro _ ⟨⟩
    exact here

omit anchored in
theorem resume_bind_heads {f : Frame} {place : Option Input} {x : Unit → Act Move}
    (found : ∀ i, place = some i → W.here i)
    (h : f.HeadsFor W W.here (x ())) :
    f.HeadsFor W W.here (resume place >>= x) := by
  cases place with
  | none => exact h
  | some i => exact .setInput_bind (found i rfl) h

theorem repeatBody_heads :
    HeadsFor W ⟨flags, .loop l₀⟩ W.here (repeatBody flags l) :=
  resume_bind_heads anchored.body
    (push_heads ⟨rfl, fun _ h => h, { anchored with }, rfl⟩ nofun trivial rfl id)

theorem checkCondition_heads :
    HeadsFor W ⟨flags, .loop l₀⟩ W.here (checkCondition flags l) :=
  .ite (fun _ => resume_bind_heads anchored.condition
      (push_heads ⟨rfl, fun _ h => h, { anchored with }, rfl⟩ nofun trivial rfl id))
    fun _ => repeatBody_heads l₀ anchored

theorem leaveLoop_heads : HeadsFor W ⟨flags, .loop l₀⟩ W.here (leaveLoop l) :=
  resume_bind_heads anchored.last (done_heads (.inl (by simp [ends])))

theorem afterBody_heads :
    HeadsFor W ⟨flags, .loop l₀⟩ W.here (afterBody flags l) := by
  refine .session_bind fun s here => ?_
  have anchored : Loop.Anchored W { l with endAt := l.endAt.or (some s.input) } := by
    refine { anchored with last := fun i found => ?_ }
    rcases Option.or_eq_some_iff.mp found with found | ⟨-, found⟩
    · exact anchored.last i found
    · cases found
      exact here
  refine .ite (fun _ => leaveLoop_heads l₀ anchored) fun _ => .ite (fun _ => ?_) fun _ => ?_
  · exact resume_bind_heads anchored.increment
      (push_heads ⟨rfl, fun _ h => h, { anchored with }, rfl⟩ nofun trivial rfl id)
  · exact checkCondition_heads l₀ anchored

end Loop

theorem stepLoop_heads {l : Loop} (anchored : l.Anchored W) {inner : Option Phase}
    (executes : inner = some .ret → flags.executes = true) :
    HeadsFor W ⟨flags, .loop l⟩ W.here (stepLoop flags l inner) := by
  unfold stepLoop
  split
  · refine .expect_bind (.next_bind fun t => ?_)
    split
    · exact .taken (startCondition_heads l anchored)
    · exact .taken (push_heads ⟨rfl, fun _ h => h, { anchored with }, rfl⟩ nofun trivial rfl id)
    · exact .unread_bind
        (push_heads ⟨rfl, fun _ h => h, { anchored with }, rfl⟩ nofun trivial rfl id)
  · exact .expect_bind (startCondition_heads l anchored)
  · refine .session_bind fun s _ => .expect_bind ?_
    exact startIncrement_heads (l := { l with running := _ }) l { anchored with }
  · exact .expect_bind (startBody_heads l anchored)
  · exact afterBody_bind_heads .forClause executes (afterBody_heads l anchored)
  · exact checkCondition_heads l anchored
  · refine .session_bind fun s _ => .ite (fun _ => ?_) fun _ => leaveLoop_heads l anchored
    exact repeatBody_heads (l := { l with running := true }) l { anchored with }

/-! Simple statements, declarations and `return` -/

theorem bumpVariable_lands (op : Operator) (name : String) :
    Lands W (fun i => W.here i ∧ W.named name i) (bumpVariable op name) fun _ => W.here :=
  .bind (.readVariable name) fun _ => .bind (.ofExcept (Value.bump_fails op _)) fun _ =>
    .update fun _ => rfl

theorem stepSimple_heads (nl : Bool) (stage : SimpleStage) :
    HeadsFor W ⟨flags, .simple nl stage⟩ W.here (stepSimple flags nl stage) := by
  have push : ∀ stage', HeadsFor W ⟨flags, .simple nl stage⟩ W.here
      (pure (.push ⟨flags, .simple nl stage'⟩ (newCond flags nl none))) := fun stage' =>
    push_heads ⟨rfl, fun _ h => h, trivial, rfl⟩ nofun trivial rfl id
  have done : HeadsFor W ⟨flags, .simple nl stage⟩ W.here (pure (.done .exprDone)) :=
    done_heads (.inl (by simp [ends]))
  cases stage with
  | start =>
    refine .next_bind fun t => .ite (fun _ => .unread_bind (push _)) fun name => ?_
    have name : t.kind = .identifier := by simpa using name
    refine .read_bind (fun _ took => W.taken took) fun behind => ?_
    split
    · exact .weaken (push _) fun _ took => W.taken took.1
    · refine .ite (fun _ => .bind (.weaken (bumpVariable_lands _ t.text) ?_) fun _ => done)
        fun _ => .weaken done fun _ took => W.taken took.1
      rintro j ⟨took, proper, i, first, read⟩
      exact ⟨W.taken took, (W.behind first name read proper).1⟩
    · rintro scene ⟨took, proper, i, first, read⟩
      have named := (W.behind first name read proper).2
      refine ⟨⟨⟨rfl, fun _ h => h, trivial, rfl⟩, nofun, trivial, ?_, id⟩, W.unread took⟩
      rintro _ ⟨⟩ _
      exact named
  | assigning name =>
    exact .ite (fun _ => .bind (.update fun _ => rfl) fun _ => done) fun _ => done
  | valued => exact done

theorem stepDeclarations_heads (nl : Bool) (inner : Option Phase) :
    HeadsFor W ⟨flags, .declarations nl⟩ W.here
      (stepDeclarations flags nl inner) := by
  have declare : HeadsFor W ⟨flags, .declarations nl⟩ W.here (do
      let t ← nextToken .decList
      if t.kind ≠ .identifier then fail (.expectedName t)
      return Move.push ⟨flags, .declarations nl⟩ ⟨flags, .declaration nl t.text⟩) := by
    refine .next_bind fun t => .taken (.ite (fun _ => ?_) fun _ => ?_)
    · exact .bind (R := fun _ _ => False) (.fail rfl) fun _ _ => False.elim
    · exact push_heads ⟨rfl, fun _ h => h, trivial, rfl⟩ nofun trivial rfl id
  cases inner with
  | none => exact declare
  | some phase =>
    refine .next_bind fun t => .ite (fun _ => .taken declare) fun _ => .unread_bind ?_
    exact done_heads (.inl (by simp [ends]))

theorem stepDeclaration_heads (nl : Bool) (name : String) (inner : Option Phase) :
    HeadsFor W ⟨flags, .declaration nl name⟩ W.here
      (stepDeclaration flags nl name inner) := by
  have done : HeadsFor W ⟨flags, .declaration nl name⟩ W.here
      (pure (.done .decDone)) := done_heads (.inl (by simp [ends]))
  have bound : ∀ value, HeadsFor W ⟨flags, .declaration nl name⟩ W.here (do
      if flags.executes then update (·.setLocal name value)
      return Move.done .decDone) := fun value =>
    .ite (fun _ => .bind (.update fun _ => rfl) fun _ => done) fun _ => done
  cases inner with
  | none =>
    refine .next_bind fun t => .ite (fun _ => .taken ?_) fun _ => .unread_bind (bound "")
    exact push_heads ⟨rfl, fun _ h => h, trivial, rfl⟩ nofun trivial rfl id
  | some phase => exact .session_bind fun s _ => bound s.result

theorem stepReturning_heads (inner : Option Phase) :
    HeadsFor W ⟨flags, .returning⟩ W.here (stepReturning flags inner) := by
  have finish : HeadsFor W ⟨flags, .returning⟩ W.here
      (pure (.done (if flags.executes then .ret else .stmtDone))) := by
    refine done_heads ?_
    split
    · exact .inr ⟨rfl, ‹_›⟩
    · exact .inl (by simp [ends])
  cases inner with
  | some phase => exact finish
  | none =>
    refine .next_bind fun t => .unread_bind ?_
    split
    iterate 4 exact .ite (fun _ => .bind (.setResult "") fun _ => finish) fun _ => finish
    exact push_heads ⟨rfl, fun _ h => h, trivial, rfl⟩ nofun trivial rfl id

/-- What any frame does in one step. -/
theorem step_heads {f : Frame} (anchored : f.Anchored W) {inner : Option Phase}
    (executes : inner = some .ret → f.flags.executes = true) :
    f.HeadsFor W (fun i => W.here i ∧ f.Primed W i) (f.step inner) := by
  obtain ⟨flags, construct⟩ := f
  have plain : ∀ {x : Act Move}, HeadsFor W ⟨flags, construct⟩ W.here x →
      HeadsFor W ⟨flags, construct⟩ (fun i => W.here i ∧ Primed W ⟨flags, construct⟩ i) x :=
    fun h => h.weaken fun _ start => start.1
  cases construct with
  | statement stage => exact plain (stepStatement_heads stage executes)
  | block scope => exact plain (stepBlock_heads scope executes)
  | branch stage => exact plain (stepBranch_heads stage executes)
  | loop l => exact plain (stepLoop_heads anchored executes)
  | simple nl stage => exact plain (stepSimple_heads nl stage)
  | declarations nl => exact plain (stepDeclarations_heads nl inner)
  | declaration nl name => exact plain (stepDeclaration_heads nl name inner)
  | returning => exact plain (stepReturning_heads inner)
  | cond nl stage => exact stepCond_heads nl stage
  | rel nl stage => exact stepRel_heads nl stage
  | expr nl terms => exact stepExpr_heads nl terms
  | call name stage => exact plain (stepCall_heads name stage)
  | arguments => exact plain (stepArguments_heads inner)

theorem act_heads {f : Frame} (anchored : f.Anchored W) {inner : Option Phase}
    (executes : inner = some .ret → f.flags.executes = true) {s : Session}
    (here : W.here s.input) (primed : f.Primed W s.input) {out : Except Fault Move × Scene}
    (h : f.act inner s = out) : Landed W (fun move i => move.Heads W f i ∧ W.here i) out :=
  h ▸ step_heads anchored executes { session := s } ⟨here, primed⟩

end Frame

/-! ### Completions -/

namespace Machine

variable {H : Type} {host : Host H} {W : Watch}

def Invocation.Raises (host : Host H) (call : Invocation H) (cause : Fault.Cause) : Prop :=
  ∃ fault s' state', Ends host (host.natives call.key call.args) call.session call.state
    (.error fault) s' state' ∧ fault.cause = cause

def Invocation.Heeds (host : Host H) (W : Watch) (call : Invocation H) : Prop :=
  ∀ s' state', Ends host (host.natives call.key call.args) call.session call.state (.ok ()) s'
    state' → W.here call.session.input → W.here s'.input

/-- How a frame has completed: it finished as its kind does, or its fault tells where it arose,
unless it came from a native function. -/
def Watched (host : Host H) (W : Watch) (f : Frame) (s : Session) (cs : List (Invocation H)) :
    Except Fault Phase → Prop
  | .ok phase => f.Finishes phase ∧ W.here s.input
  | .error fault => W.tells fault s.input ∨ ∃ call ∈ cs, call.Raises host fault.cause

theorem Watched.of_heir {f heir : Frame} {s : Session} {cs ds : List (Invocation H)}
    {r : Except Fault Phase} (h : Watched host W heir s ds r) (flags : heir.flags = f.flags)
    (ends : heir.ends ⊆ f.ends) (later : ds ⊆ cs) : Watched host W f s cs r := by
  cases r with
  | ok phase =>
    refine ⟨h.1.imp (fun inside => ends inside) ?_, h.2⟩
    rintro ⟨ret, exe⟩
    exact ⟨ret, flags ▸ exe⟩
  | error fault =>
    rcases h with told | ⟨call, inside, raises⟩
    · exact .inl told
    · exact .inr ⟨call, later inside, raises⟩

theorem Completes.watched {name : String} {out : Except Fault Move × Scene} {state state' : H}
    {r : Except Fault Phase} {s' : Session} {cs : List (Invocation H)}
    (h : Completes host name out state r s' state' cs) {f : Frame} {inner : Option Phase}
    {s : Session} (hout : f.act inner s = out)
    (executes : inner = some .ret → f.flags.executes = true) (anchored : f.Anchored W)
    (here : W.here s.input) (primed : f.Primed W s.input)
    (heeds : ∀ call ∈ cs, call.Heeds host W) : Watched host W f s' cs r := by
  induction h generalizing f inner s with
  | fault => exact .inl (Frame.act_heads anchored executes here primed hout)
  | limit => exact .inl (W.plain (Frame.act_heads anchored executes here primed hout).2 rfl)
  | done => exact Frame.act_heads anchored executes here primed hout
  | stay _ ih =>
    obtain ⟨heir, there⟩ := Frame.act_heads anchored executes here primed hout
    exact (ih rfl (by simp) heir.anchored there (heir.primed _) heeds).of_heir heir.flags heir.ends
      (List.Subset.refl _)
  | @pushFault _ _ _ self child fault _ _ cs room _ ih =>
    obtain ⟨⟨-, -, bears⟩, there⟩ := Frame.act_heads anchored executes here primed hout
    have inside : Watched host W child _ cs (.error fault) :=
      ih rfl (by simp) bears.anchored there bears.primed heeds
    exact inside
  | @push _ _ _ self child inside s₁ _ _ _ _ cs ds room _ _ ih₁ ih₂ =>
    obtain ⟨⟨heir, -, bears⟩, there⟩ := Frame.act_heads anchored executes here primed hout
    have first : Watched host W child s₁ cs (.ok inside) := by
      refine ih₁ rfl (by simp) bears.anchored there bears.primed fun call hcall => ?_
      exact heeds call (List.mem_append_left _ hcall)
    obtain ⟨finishes, back⟩ := first
    have behind : ∀ call ∈ ds, call.Heeds host W := fun call hcall =>
      heeds call (List.mem_append_right _ hcall)
    exact (ih₂ rfl (bears.returned heir finishes) heir.anchored back (heir.primed _)
      behind).of_heir heir.flags heir.ends (List.subset_append_right _ _)
  | invokeFault ends => exact .inr ⟨_, List.mem_singleton.mpr rfl, _, _, _, ends, rfl⟩
  | invoke ends =>
    have landed := Frame.act_heads anchored executes here primed hout
    have back := heeds _ (List.mem_singleton.mpr rfl) _ _ ends landed.2
    exact ⟨landed.1, back⟩

def Attended (host : Host H) (W : Watch) (flags : Flags) (s : Session) (cs : List (Invocation H))
    (r : Except Fault Phase) : Prop :=
  ∃ r₀, r = r₀.mapError (·.orLine s.line) ∧
    Watched host W (Frame.newStatement flags) s cs r₀

theorem Attended.of_ok {flags : Flags} {s : Session} {cs : List (Invocation H)} {phase : Phase}
    (h : Attended host W flags s cs (.ok phase)) :
    (Frame.newStatement flags).Finishes phase ∧ W.here s.input := by
  obtain ⟨r₀, same, watched⟩ := h
  cases r₀ with
  | error fault => cases same
  | ok phase' =>
    cases same
    exact watched

theorem parse_attended {fuel : Nat} {s s' : Session} {state state' : H} {flags : Flags}
    {r : Except Fault Phase}
    (parsed : s.parse host fuel state .stmt flags = some ⟨r, s', state'⟩)
    (here : W.here s.input)
    (heeds : ∀ call ∈ s.parseCalls host fuel state .stmt flags, call.Heeds host W) :
    Attended host W flags s' (s.parseCalls host fuel state .stmt flags) r := by
  by_cases room : s.depth < s.limits.maxDepth
  · obtain ⟨r₀, s₀, state₀, hfin, comp⟩ := Session.completes_of_parse room rfl parsed
    obtain ⟨rfl, rfl, -⟩ := Finished.mk.inj hfin
    exact ⟨r₀, rfl, comp.watched rfl (by simp) trivial here nofun heeds⟩
  · cases fuel with
    | zero => cases parsed
    | succ fuel =>
      rw [Session.parse_full (Nat.not_lt.mp room)] at parsed
      cases parsed
      exact ⟨.error { cause := .recursionLimit }, rfl, .inl (W.plain here rfl)⟩

/-- What holds of every statement holds of the last one that a script executes. -/
theorem Executes.attended {s s' : Session} {state state' : H} {r : Except Fault Phase}
    {cs : List (Invocation H)} (h : Executes host s state r s' state' cs) (here : W.here s.input)
    (heeds : ∀ call ∈ cs, call.Heeds host W) : Attended host W .execute s' cs r := by
  induction h with
  | last parsed _ => exact parse_attended parsed here heeds
  | next parsed _ ih =>
    have before := parse_attended parsed here fun call hcall =>
      heeds call (List.mem_append_left _ hcall)
    obtain ⟨r₀, same, watched⟩ := ih before.of_ok.2 fun call hcall =>
      heeds call (List.mem_append_right _ hcall)
    exact ⟨r₀, same, watched.of_heir rfl (List.Subset.refl _) (List.subset_append_right _ _)⟩

end Machine

end Scriptlet
