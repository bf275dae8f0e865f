import Scriptlet.Proofs.Completion

/-!
What frames do not see. Of a session a frame sees the tokens ahead, the call under construction, the
functions, what variables mean, and the result where another frame has just left one for it.
Sessions that differ in other things, such as how the text is laid out or how open blocks are
numbered, are treated alike by every frame but that of a block, which is the only one to open blocks
and to close them.
-/

namespace Scriptlet

/-- A way for two sessions to differ that frames do not see and do not break. -/
structure Likeness where
  inputs : Input → Input → Prop
  /-- Sessions that are treated alike. If the flag is on, their results are the same. -/
  sessions : Bool → Session → Session → Prop
  faults : Fault → Fault → Prop
  next : ∀ {i j} (phase : Phase), inputs i j →
    (j.next phase).1 = (i.next phase).1 ∧ inputs (i.next phase).2 (j.next phase).2
  unread : ∀ {i j} (t : Token), inputs i j → inputs (i.unread t) (j.unread t)
  cause : ∀ cause, faults { cause } { cause }
  malformed : ∀ {i j} (message : String), inputs i j →
    faults ⟨.malformed message, i.line⟩ ⟨.malformed message, j.line⟩
  input : ∀ {known s t}, sessions known s t → inputs s.input t.input
  call : ∀ {known s t}, sessions known s t → t.call = s.call
  functions : ∀ {known s t}, sessions known s t → t.functions = s.functions
  values : ∀ {known s t}, sessions known s t → ∀ name, t.getVar? name = s.getVar? name
  result : ∀ {s t}, sessions true s t → t.result = s.result
  withInput : ∀ {known s t i j}, inputs i j → sessions known s t →
    sessions known { s with input := i } { t with input := j }
  withToken : ∀ {known s t} token, sessions known s t →
    sessions known { s with token } { t with token }
  withResult : ∀ {known s t} result, sessions known s t →
    sessions true { s with result } { t with result }
  withCall : ∀ {known s t} call, sessions known s t →
    sessions known { s with call } { t with call }
  assign : ∀ {known s t} name value, sessions known s t →
    sessions known (s.assign name value) (t.assign name value)
  setLocal : ∀ {known s t} name value, sessions known s t →
    sessions known (s.setLocal name value) (t.setLocal name value)

/-! ### Frames on both sides -/

def Frame.scope? (f : Frame) : Option BlockId :=
  match f.construct with
  | .block scope => scope
  | _ => none

namespace Frame

structure Loop.Like (inputs : Input → Input → Prop) (l m : Loop) : Prop where
  stage : m.stage = l.stage
  running : m.running = l.running
  conditionAt : Option.Rel inputs l.conditionAt m.conditionAt
  incrementAt : Option.Rel inputs l.incrementAt m.incrementAt
  bodyAt : Option.Rel inputs l.bodyAt m.bodyAt
  endAt : Option.Rel inputs l.endAt m.endAt

def isLoop (f : Frame) : Bool :=
  match f.construct with
  | .loop _ => true
  | _ => false

inductive Like (inputs : Input → Input → Prop) : Frame → Frame → Prop where
  | same {f} : f.isLoop = false → Like inputs f f
  | loop {flags l m} : l.Like inputs m → Like inputs ⟨flags, .loop l⟩ ⟨flags, .loop m⟩

def gives (f : Frame) : Bool :=
  match f.construct with
  | .cond _ _ | .rel _ _ | .expr _ _ | .call _ _ => f.flags.executes
  | _ => false

def reads (f : Frame) (inner : Option Phase) : Bool :=
  match f.construct with
  | .cond _ (.joining _ _ settled) => f.flags.executes && !settled
  | .cond _ .first | .rel _ .first | .rel _ (.joining _ _) | .expr _ ⟨.afterParen, _, _⟩
  | .expr _ ⟨.afterCall, _, _⟩ | .branch .afterCondition | .simple _ (.assigning _)
  | .loop { stage := .afterCondition, .. } => f.flags.executes
  | .loop { stage := .afterLoopCondition, .. } => true
  | .declaration _ _ | .arguments => f.flags.executes && inner.isSome
  | _ => false

def Sound (f : Frame) : Prop :=
  match f.construct with
  | .loop l => l.running = true ∨ l.stage = .afterIncrement ∨ l.stage = .afterLoopCondition →
      f.flags.executes = true
  | .call _ (.invoking none) => f.flags.executes = false
  | _ => True

def Clear (f : Frame) (inner : Option Phase) : Prop := f.Sound ∧ f.reads inner = false

end Frame

namespace Move

def Bare : Move → Prop
  | .push self inner => self.scope? = none ∧ inner.scope? = none
  | .stay self => self.scope? = none
  | .done _ => True
  | .invoke _ _ _ => True

inductive Like (inputs : Input → Input → Prop) : Move → Move → Prop where
  | push {self self' inner inner'} : self.Like inputs self' → inner.Like inputs inner' →
      Like inputs (.push self inner) (.push self' inner')
  | stay {self self'} : self.Like inputs self' → Like inputs (.stay self) (.stay self')
  | done (phase : Phase) : Like inputs (.done phase) (.done phase)
  | invoke (target : Callable) (args : List String) (saved : Option Call) :
      Like inputs (.invoke target args saved) (.invoke target args saved)

/-- A move of a frame, which leaves a result when it is done or not, that goes on without knowledge
of the result: whoever reads one waits for a frame that leaves one. -/
def Clear (gives : Bool) : Move → Prop
  | .push self inner => (gives = true → self.gives = true) ∧ self.Sound ∧ inner.Clear none ∧
      ∀ phase, self.reads (some phase) = true → inner.gives = true
  | .stay self => (gives = true → self.gives = true) ∧ self.Clear none
  | .done _ => gives = false
  | .invoke _ _ _ => True

def Alike (L : Likeness) (gives known : Bool) (m n : Move) : Prop :=
  m.Like L.inputs n ∧ m.Bare ∧ (known = false → m.Clear gives)

end Move

/-! ### Actions on both sides -/

inductive Agree {α : Type} (F : Fault → Fault → Prop) (P : α → α → Prop) :
    Except Fault α → Except Fault α → Prop where
  | ok {a b} : P a b → Agree F P (.ok a) (.ok b)
  | error {f g} : F f g → Agree F P (.error f) (.error g)

namespace Act

variable {α β : Type} {L : Likeness} {known : Bool} {P : Bool → α → α → Prop}
  {Q : Bool → β → β → Prop}

/-- On like sessions the actions answer alike and leave like sessions. What is known of the results
is not forgotten. -/
def Alike (L : Likeness) (known : Bool) (P : Bool → α → α → Prop) (x y : Act α) : Prop :=
  ∀ scene scene' : Scene, L.sessions known scene.session scene'.session →
    ∃ known', (known = true → known' = true) ∧
      L.sessions known' (x.on scene).2.session (y.on scene').2.session ∧
      Agree L.faults (P known') (x.on scene).1 (y.on scene').1

abbrev Same (L : Likeness) (known : Bool) (x y : Act α) : Prop :=
  Alike L known (fun _ a b => b = a) x y

namespace Alike

theorem pure {a b : α} (h : P known a b) : Alike L known P (Pure.pure a) (Pure.pure b) := by
  intro scene scene' related
  exact ⟨known, id, related, .ok h⟩

theorem fail (cause : Fault.Cause) : Alike L known P (Act.fail cause) (Act.fail cause) := by
  intro scene scene' related
  exact ⟨known, id, related, .error (L.cause cause)⟩

theorem bind {x y : Act α} {f g : α → Act β} (hx : Alike L known P x y)
    (hf : ∀ known' a b, (known = true → known' = true) → P known' a b →
      Alike L known' Q (f a) (g b)) :
    Alike L known Q (x >>= f) (y >>= g) := by
  intro scene scene' related
  obtain ⟨known₁, kept₁, related₁, answers⟩ := hx scene scene' related
  rw [on_bind, on_bind]
  rcases hon : x.on scene with ⟨r, mid⟩
  rcases hon' : y.on scene' with ⟨r', mid'⟩
  rw [hon, hon'] at answers related₁
  cases answers with
  | error faults => exact ⟨known₁, kept₁, related₁, .error faults⟩
  | ok holds =>
    obtain ⟨known₂, kept₂, rest⟩ := hf known₁ _ _ kept₁ holds mid mid' related₁
    exact ⟨known₂, kept₂ ∘ kept₁, rest⟩

/-- Both go on with the same answer. -/
theorem same_bind {x y : Act α} {f g : α → Act β} (hx : Same L known x y)
    (hf : ∀ known' a, (known = true → known' = true) → Alike L known' Q (f a) (g a)) :
    Alike L known Q (x >>= f) (y >>= g) := by
  refine bind hx fun known' a b kept same => ?_
  obtain rfl : b = a := same
  exact hf known' b kept

theorem ite {p : Prop} [Decidable p] {x y x' y' : Act α} (hx : p → Alike L known P x y)
    (hx' : ¬ p → Alike L known P x' y') :
    Alike L known P (if p then x else x') (if p then y else y') := by
  split
  · exact hx ‹_›
  · exact hx' ‹_›

theorem ofExcept (r : Except Fault.Cause α) :
    Same L known (Act.ofExcept r) (Act.ofExcept r) := by
  cases r with
  | ok a => exact pure rfl
  | error cause => exact fail cause

theorem session_bind {f g : Session → Act β}
    (h : ∀ s t, L.sessions known s t → Alike L known Q (f s) (g t)) :
    Alike L known Q (session >>= f) (session >>= g) := by
  intro scene scene' related
  exact h _ _ related scene scene' related

theorem emit_bind {e e' : Event} {f g : Unit → Act β} (h : Alike L known Q (f ()) (g ())) :
    Alike L known Q (emit e >>= f) (emit e' >>= g) := by
  intro scene scene' related
  exact h _ _ related

theorem update_bind {u v : Session → Session} {known' : Bool} {f g : Unit → Act β}
    (kept : known = true → known' = true)
    (hu : ∀ s t, L.sessions known s t → L.sessions known' (u s) (v t))
    (h : Alike L known' Q (f ()) (g ())) :
    Alike L known Q (update u >>= f) (update v >>= g) := by
  intro scene scene' related
  obtain ⟨known₂, kept₂, rest⟩ := h { scene with session := u scene.session }
    { scene' with session := v scene'.session } (hu _ _ related)
  exact ⟨known₂, kept₂ ∘ kept, rest⟩

theorem setSession_bind {s t : Session} {f g : Unit → Act β} (hs : L.sessions known s t)
    (h : Alike L known Q (f ()) (g ())) :
    Alike L known Q (setSession s >>= f) (setSession t >>= g) := by
  intro scene scene' _
  exact h { scene with session := s } { scene' with session := t } hs

theorem next_bind {phase : Phase} {f g : Token → Act β} (h : ∀ t, Alike L known Q (f t) (g t)) :
    Alike L known Q (nextToken phase >>= f) (nextToken phase >>= g) := by
  intro scene scene' related
  obtain ⟨same, onward⟩ := L.next phase (L.input related)
  rcases next : scene.session.input.next phase with ⟨t, i⟩
  rcases next' : scene'.session.input.next phase with ⟨t', j⟩
  rw [next, next'] at same onward
  obtain rfl : t' = t := same
  have related' := L.withToken t' (L.withInput onward related)
  rw [on_bind, on_bind, on_nextToken next, on_nextToken next']
  by_cases malformed : t'.kind = .error
  · rw [if_pos malformed, if_pos malformed]
    exact ⟨known, id, related', .error (L.malformed t'.text onward)⟩
  · rw [if_neg malformed, if_neg malformed]
    exact h t' (took scene phase t' i) (took scene' phase t' j) related'

theorem unread_bind {t : Token} {f g : Unit → Act β} (h : Alike L known Q (f ()) (g ())) :
    Alike L known Q (unread t >>= f) (unread t >>= g) :=
  update_bind id (fun _ _ related => L.withInput (L.unread t (L.input related)) related) h

theorem expect_bind {phase : Phase} {kind : Token.Kind} {f g : Unit → Act β}
    (h : Alike L known Q (f ()) (g ())) :
    Alike L known Q (expect phase kind >>= f) (expect phase kind >>= g) := by
  rw [expect_bind_eq, expect_bind_eq]
  exact next_bind fun t => ite (fun _ => fail _) fun _ => h

theorem setResult_bind {value : String} {f g : Unit → Act β} (h : Alike L true Q (f ()) (g ())) :
    Alike L known Q (setResult value >>= f) (setResult value >>= g) :=
  update_bind (fun _ => rfl) (fun _ _ related => L.withResult value related) h

theorem takeResult : Same L true Act.takeResult Act.takeResult := by
  intro scene scene' related
  refine ⟨true, id, L.withResult "" related, .ok (L.result related)⟩

theorem readVariable (name : String) :
    Same L known (Act.readVariable name) (Act.readVariable name) := by
  refine session_bind fun s t related => ?_
  rw [L.values related name]
  split
  · exact pure rfl
  · exact fail _

end Alike

end Act

namespace Frame

open Act

variable {L : Likeness} {flags : Flags} {known : Bool}

/-! ### Expressions -/

theorem finishTier_alike (t : Token) (value : String) (phase : Phase) :
    Alike L known (Move.Alike L flags.executes) (finishTier flags t value phase)
      (finishTier flags t value phase) := by
  refine .unread_bind (.ite (fun _ => ?_) fun off => ?_)
  · exact .setResult_bind (.pure ⟨.done phase, trivial, nofun⟩)
  · exact .pure ⟨.done phase, trivial, fun _ => by simpa [Move.Clear] using off⟩

theorem closeCond_alike (nl : Bool) (value : String) :
    Alike L known (Move.Alike L flags.executes) (closeCond flags nl value)
      (closeCond flags nl value) := by
  have join : ∀ op, (joinCond flags nl value op).Clear flags.executes := by
    intro op
    refine ⟨id, trivial, ⟨trivial, rfl⟩, fun _ => ?_⟩
    simp only [reads, gives, newRel, Flags.executes_executeIf]
    cases flags.executes <;> simp
  refine .next_bind fun t => ?_
  split
  · exact .pure ⟨.push (.same rfl) (.same rfl), ⟨rfl, rfl⟩, fun _ => join .and⟩
  · exact .pure ⟨.push (.same rfl) (.same rfl), ⟨rfl, rfl⟩, fun _ => join .or⟩
  · exact finishTier_alike t value .condDone

/-- The value that an executed frame has been left. -/
theorem value_alike {x : Act String} (h : flags.executes = true → known = true)
    (hx : known = true → Same L known x x) :
    Same L known (if flags.executes then x else Pure.pure "")
      (if flags.executes then x else Pure.pure "") :=
  .ite (fun on => hx (h on)) fun _ => .pure rfl

/-- What is not known is not read. -/
theorem known_of_reads {f : Frame} {inner : Option Phase} (clear : known = false → f.Clear inner)
    (h : f.reads inner = true) : known = true := by
  cases known with
  | true => rfl
  | false => rw [(clear rfl).2] at h; cases h

theorem stepCond_alike (nl : Bool) (stage : CondStage) (inner : Option Phase)
    (clear : known = false → Clear ⟨flags, .cond nl stage⟩ inner) :
    Alike L known (Move.Alike L flags.executes) (stepCond flags nl stage)
      (stepCond flags nl stage) := by
  cases stage with
  | start seed =>
    refine .pure ⟨.push (.same rfl) (.same rfl), ⟨rfl, rfl⟩, fun _ => ?_⟩
    exact ⟨id, trivial, ⟨trivial, rfl⟩, fun _ => id⟩
  | first =>
    rw [stepCond_first]
    refine .same_bind (value_alike (known_of_reads clear) ?_) fun _ value _ =>
      closeCond_alike nl value
    rintro rfl
    exact .takeResult
  | joining left op settled =>
    rw [stepCond_joining]
    refine .same_bind (.ite (fun on => ?_) fun _ => .pure rfl) fun _ value _ =>
      closeCond_alike nl value
    refine .ite (fun _ => .pure rfl) fun open' => .session_bind fun s t related => ?_
    obtain rfl : known = true := known_of_reads clear (by simp [reads, on, open'])
    rw [L.result related]
    exact .ofExcept _

theorem closeRel_alike (nl : Bool) (value : String) :
    Alike L known (Move.Alike L flags.executes) (closeRel flags nl value)
      (closeRel flags nl value) := by
  refine .next_bind fun t => ?_
  split
  · refine .ite (fun _ => ?_) fun _ => finishTier_alike t value .relExpDone
    refine .pure ⟨.push (.same rfl) (.same rfl), ⟨rfl, rfl⟩, fun _ => ?_⟩
    exact ⟨id, trivial, ⟨trivial, rfl⟩, fun _ => id⟩
  · exact finishTier_alike t value .relExpDone

theorem stepRel_alike (nl : Bool) (stage : RelStage) (inner : Option Phase)
    (clear : known = false → Clear ⟨flags, .rel nl stage⟩ inner) :
    Alike L known (Move.Alike L flags.executes) (stepRel flags nl stage)
      (stepRel flags nl stage) := by
  cases stage with
  | start seed =>
    refine .pure ⟨.push (.same rfl) (.same rfl), ⟨rfl, rfl⟩, fun _ => ?_⟩
    exact ⟨id, trivial, ⟨trivial, rfl⟩, fun _ => id⟩
  | first =>
    rw [stepRel_first]
    refine .same_bind (value_alike (known_of_reads clear) ?_) fun _ value _ =>
      closeRel_alike nl value
    rintro rfl
    exact .takeResult
  | joining left op =>
    rw [stepRel_joining]
    refine .same_bind (value_alike (known_of_reads clear) ?_) fun _ value _ =>
      closeRel_alike nl value
    rintro rfl
    refine .session_bind fun s t related => ?_
    rw [L.result related]
    exact .same_bind (.ofExcept _) fun _ _ _ => .pure rfl

theorem closeExpr_alike (nl : Bool) (value : String) :
    Alike L known (Move.Alike L flags.executes) (closeExpr flags nl value)
      (closeExpr flags nl value) := by
  refine .next_bind fun t => ?_
  split
  · refine .ite (fun _ => ?_) fun _ => finishTier_alike t value .exprDone
    exact .pure ⟨.stay (.same rfl), rfl, fun _ => ⟨id, trivial, rfl⟩⟩
  · exact finishTier_alike t value .exprDone

theorem closeTerm_alike (nl : Bool) (terms : Terms) (term : String) :
    Alike L known (Move.Alike L flags.executes) (closeTerm flags nl terms term)
      (closeTerm flags nl terms term) := by
  rw [closeTerm_eq]
  refine .same_bind (.ite (fun _ => .ofExcept _) fun _ => .pure rfl) fun _ value _ => ?_
  exact closeExpr_alike nl value

theorem openTerm_alike (nl : Bool) (terms : Terms) (t : Token) :
    Alike L known (Move.Alike L flags.executes) (openTerm flags nl terms t)
      (openTerm flags nl terms t) := by
  have unary : ∀ u : Unary, Alike L known (Move.Alike L flags.executes)
      (pure (.stay ⟨flags, .expr nl { terms with stage := .term none, unary := u :: terms.unary }⟩))
      (pure (.stay
        ⟨flags, .expr nl { terms with stage := .term none, unary := u :: terms.unary }⟩)) :=
    fun u => .pure ⟨.stay (.same rfl), rfl, fun _ => ⟨id, trivial, rfl⟩⟩
  unfold openTerm
  split
  · exact closeTerm_alike nl terms t.text
  · refine .ite (fun _ => .same_bind (.readVariable t.text) fun _ value _ => ?_) fun _ => ?_
    · exact closeTerm_alike nl terms value
    · exact closeTerm_alike nl terms ""
  · refine .pure ⟨.push (.same rfl) (.same rfl), ⟨rfl, rfl⟩, fun _ => ?_⟩
    exact ⟨id, trivial, ⟨trivial, rfl⟩, fun _ => id⟩
  · refine .pure ⟨.push (.same rfl) (.same rfl), ⟨rfl, rfl⟩, fun _ => ?_⟩
    exact ⟨id, trivial, ⟨trivial, rfl⟩, fun _ => id⟩
  · exact unary .minus
  · exact unary .not
  · exact .fail _

theorem stepExpr_alike (nl : Bool) (terms : Terms) (inner : Option Phase)
    (clear : known = false → Clear ⟨flags, .expr nl terms⟩ inner) :
    Alike L known (Move.Alike L flags.executes) (stepExpr flags nl terms)
      (stepExpr flags nl terms) := by
  have close : (flags.executes = true → known = true) →
      Alike L known (Move.Alike L flags.executes) (innerValue flags >>= closeTerm flags nl terms)
        (innerValue flags >>= closeTerm flags nl terms) := by
    intro h
    refine .same_bind (value_alike h ?_) fun _ value _ => closeTerm_alike nl terms value
    rintro rfl
    exact .takeResult
  obtain ⟨stage, left, unary⟩ := terms
  cases stage with
  | term seed =>
    cases seed with
    | some t => exact openTerm_alike nl _ t
    | none => exact .next_bind fun t => openTerm_alike nl _ t
  | afterParen => exact .expect_bind (close (known_of_reads clear))
  | afterCall => exact close (known_of_reads clear)

/-! ### Calls -/

theorem stepCall_alike (name : String) (stage : CallStage) (inner : Option Phase)
    (clear : known = false → Clear ⟨flags, .call name stage⟩ inner) :
    Alike L known (Move.Alike L flags.executes) (stepCall flags name stage)
      (stepCall flags name stage) := by
  unfold stepCall
  split
  · refine .expect_bind (.ite (fun _ => .session_bind fun s t related => ?_) fun off => ?_)
    · have found : t.functions.get? name = s.functions.get? name := by rw [L.functions related]
      rw [found, L.call related]
      split
      · refine .setSession_bind (L.withCall _ related) ?_
        refine .pure ⟨.push (.same rfl) (.same rfl), ⟨rfl, rfl⟩, fun _ => ?_⟩
        exact ⟨id, trivial, ⟨trivial, by simp [reads]⟩, by simp [reads]⟩
      · exact .fail _
    · refine .pure ⟨.push (.same rfl) (.same rfl), ⟨rfl, rfl⟩, fun _ => ?_⟩
      exact ⟨id, by simpa [Sound] using off, ⟨trivial, by simp [reads]⟩, by simp [reads]⟩
  · refine .pure ⟨.done .exprDone, trivial, fun unknown => (clear unknown).1⟩
  · refine .session_bind fun s t related => ?_
    rw [L.call related]
    exact .emit_bind (.setResult_bind (.pure ⟨.invoke _ _ _, trivial, fun _ => trivial⟩))

theorem addArgument_alike : Same L true addArgument addArgument := by
  refine .same_bind .takeResult fun known value _ scene scene' related => ?_
  have same := L.withCall (scene.session.call.map fun c => { c with args := c.args ++ [value] })
    related
  refine ⟨known, id, ?_, .ok rfl⟩
  rw [on_update, on_update, L.call related]
  exact same

theorem stepArguments_alike (inner : Option Phase)
    (clear : known = false → Clear ⟨flags, .arguments⟩ inner) :
    Alike L known (Move.Alike L false) (stepArguments flags inner) (stepArguments flags inner) := by
  have argument : ∀ known, Alike L known (Move.Alike L false)
      (pure (.push ⟨flags, .arguments⟩ (newCond flags false none)))
      (pure (.push ⟨flags, .arguments⟩ (newCond flags false none))) := by
    refine fun _ => .pure ⟨.push (.same rfl) (.same rfl), ⟨rfl, rfl⟩, fun _ => ?_⟩
    exact ⟨nofun, trivial, ⟨trivial, rfl⟩, fun _ => by simp [reads, gives, newCond]⟩
  have done : ∀ known, Alike L known (Move.Alike L false) (pure (.done .argListDone))
      (pure (.done .argListDone)) := fun _ => .pure ⟨.done _, trivial, fun _ => rfl⟩
  cases inner with
  | none => exact .next_bind fun t => .ite (fun _ => done _) fun _ => .unread_bind (argument _)
  | some phase =>
    have behind : ∀ known, Alike L known (Move.Alike L false) (afterArgument flags)
        (afterArgument flags) := by
      intro known
      refine .next_bind fun t => ?_
      split
      · exact argument _
      · exact done _
      · exact .fail _
    refine .ite (fun on => ?_) fun _ => behind known
    obtain rfl : known = true := known_of_reads clear (by simp [reads, on])
    exact .same_bind addArgument_alike fun known _ _ => behind known

/-! ### Statements -/

theorem forward_alike (terminated : Bool) {inner : Construct}
    (plain : isLoop ⟨flags, inner⟩ = false)
    (bare : scope? ⟨flags, inner⟩ = none) (clear : Clear ⟨flags, inner⟩ none) :
    Alike L known (Move.Alike L false)
      (pure (.push ⟨flags, .statement (.forward terminated)⟩ ⟨flags, inner⟩))
      (pure (.push ⟨flags, .statement (.forward terminated)⟩ ⟨flags, inner⟩)) := by
  refine .pure ⟨.push (.same rfl) (.same plain), ⟨rfl, bare⟩, fun _ => ?_⟩
  exact ⟨nofun, trivial, clear, nofun⟩

theorem openStatement_alike (t : Token) :
    Alike L known (Move.Alike L false) (openStatement flags t) (openStatement flags t) := by
  have done : ∀ phase, Alike L known (Move.Alike L false) (pure (.done phase))
      (pure (.done phase)) := fun phase => .pure ⟨.done phase, trivial, fun _ => rfl⟩
  unfold openStatement
  split
  · exact .pure ⟨.stay (.same rfl), rfl, fun _ => ⟨nofun, trivial, rfl⟩⟩
  · exact done .stmtDone
  · exact done .eof
  · exact done .stmtBlockDone
  · exact forward_alike false rfl rfl ⟨trivial, rfl⟩
  · exact forward_alike false rfl rfl ⟨trivial, rfl⟩
  · refine .pure ⟨.push (.same rfl) (.loop ⟨rfl, rfl, .none, .none, .none, .none⟩), ⟨rfl, rfl⟩,
      fun _ => ⟨nofun, trivial, ⟨by simp [Sound], rfl⟩, nofun⟩⟩
  · exact forward_alike true rfl rfl ⟨trivial, by simp [reads]⟩
  · exact forward_alike true rfl rfl ⟨trivial, rfl⟩
  iterate 6 exact .unread_bind (forward_alike true rfl rfl ⟨trivial, rfl⟩)
  exact .fail _

theorem terminate_alike : Alike L known (Move.Alike L false) terminate terminate := by
  have done : Alike L known (Move.Alike L false) (pure (.done .stmtDone))
      (pure (.done .stmtDone)) := .pure ⟨.done _, trivial, fun _ => rfl⟩
  refine .next_bind fun t => ?_
  split
  iterate 2 exact done
  iterate 3 exact .unread_bind done
  exact .fail _

theorem stepStatement_alike (stage : StatementStage) (inner : Option Phase) :
    Alike L known (Move.Alike L false) (stepStatement flags stage inner)
      (stepStatement flags stage inner) := by
  have done : ∀ phase, Alike L known (Move.Alike L false) (pure (.done phase))
      (pure (.done phase)) := fun phase => .pure ⟨.done phase, trivial, fun _ => rfl⟩
  cases stage with
  | start => exact .next_bind fun t => openStatement_alike t
  | forward terminated =>
    exact .ite (fun _ => done .ret) fun _ => .ite (fun _ => terminate_alike) fun _ => done .stmtDone

theorem bodyReturns_alike (clause : Fault.Clause) (inner : Option Phase) :
    Same L known (bodyReturns clause inner) (bodyReturns clause inner) := by
  unfold bodyReturns
  split
  · exact .pure rfl
  iterate 3 exact .fail _
  exact .pure rfl

/-- What an executed frame makes of the result is the same on both sides. -/
theorem truthy_alike {s t : Session} (h : flags.executes = true → known = true)
    (related : L.sessions known s t) :
    (flags.executes && Value.truthy t.result) = (flags.executes && Value.truthy s.result) := by
  cases on : flags.executes with
  | false => rfl
  | true =>
    obtain rfl := h on
    rw [L.result related]

theorem stepBranch_alike (stage : BranchStage) (inner : Option Phase)
    (clear : known = false → Clear ⟨flags, .branch stage⟩ inner) :
    Alike L known (Move.Alike L false) (stepBranch flags stage inner)
      (stepBranch flags stage inner) := by
  have done : ∀ known phase, Alike L known (Move.Alike L false) (pure (.done phase))
      (pure (.done phase)) := fun _ phase => .pure ⟨.done phase, trivial, fun _ => rfl⟩
  have seek : ∀ known taken, Alike L known (Move.Alike L false)
      (pure (.stay ⟨flags, .branch (.seekElse taken)⟩))
      (pure (.stay ⟨flags, .branch (.seekElse taken)⟩)) :=
    fun _ _ => .pure ⟨.stay (.same rfl), rfl, fun _ => ⟨nofun, trivial, rfl⟩⟩
  cases stage with
  | opening =>
    refine .expect_bind (.pure ⟨.push (.same rfl) (.same rfl), ⟨rfl, rfl⟩, fun _ => ?_⟩)
    exact ⟨nofun, trivial, ⟨trivial, rfl⟩, fun _ => id⟩
  | afterCondition =>
    refine .session_bind fun s t related => ?_
    rw [truthy_alike (known_of_reads clear) related]
    refine .expect_bind (.pure ⟨.push (.same rfl) (.same rfl), ⟨rfl, rfl⟩, fun _ => ?_⟩)
    exact ⟨nofun, trivial, ⟨trivial, rfl⟩, nofun⟩
  | afterThen taken =>
    refine .same_bind (bodyReturns_alike _ inner) fun known _ _ => ?_
    exact .ite (fun _ => done known .ret) fun _ => seek known taken
  | seekElse taken =>
    refine .next_bind fun t => ?_
    split
    · exact seek known taken
    · refine .pure ⟨.push (.same rfl) (.same rfl), ⟨rfl, rfl⟩, fun _ => ?_⟩
      exact ⟨nofun, trivial, ⟨trivial, rfl⟩, nofun⟩
    · exact .unread_bind (done known .stmtDone)
  | afterElse =>
    refine .same_bind (bodyReturns_alike _ inner) fun known _ _ => ?_
    exact .ite (fun _ => done known .ret) fun _ => done known .stmtDone

/-! ### Loops -/

section Loop

variable {l m : Loop} (like : l.Like L.inputs m)
  (sound : known = false → l.running = true → flags.executes = true)
include like sound

theorem startBody_alike :
    Alike L known (Move.Alike L false) (startBody flags l) (startBody flags m) := by
  refine .session_bind fun s t related => ?_
  rw [like.running]
  refine .pure ⟨.push (.loop ?_) (.same rfl), ⟨rfl, rfl⟩, fun unknown => ?_⟩
  · exact { like with stage := rfl, running := rfl, bodyAt := .some (L.input related) }
  · exact ⟨nofun, by simpa [Sound] using sound unknown, ⟨trivial, rfl⟩, nofun⟩

theorem startIncrement_alike :
    Alike L known (Move.Alike L false) (startIncrement flags l) (startIncrement flags m) := by
  refine .session_bind fun s t related => .next_bind fun token => .ite (fun _ => ?_) fun _ => ?_
  · exact startBody_alike like sound
  · refine .unread_bind (.pure ⟨.push (.loop ?_) (.same rfl), ⟨rfl, rfl⟩, fun unknown => ?_⟩)
    · exact { like with stage := rfl, incrementAt := .some (L.input related) }
    · exact ⟨nofun, by simpa [Sound] using sound unknown, ⟨trivial, rfl⟩, nofun⟩

theorem startCondition_alike :
    Alike L known (Move.Alike L false) (startCondition flags l) (startCondition flags m) := by
  refine .session_bind fun s t related => .next_bind fun token => .ite (fun _ => ?_) fun _ => ?_
  · exact startIncrement_alike { like with running := rfl } fun _ => id
  · refine .unread_bind (.pure ⟨.push (.loop ?_) (.same rfl), ⟨rfl, rfl⟩, fun unknown => ?_⟩)
    · exact { like with stage := rfl, conditionAt := .some (L.input related) }
    · exact ⟨nofun, by simpa [Sound] using sound unknown, ⟨trivial, rfl⟩, fun _ => id⟩

omit like sound in
theorem resume_bind_alike {at₁ at₂ : Option Input} {x y : Unit → Act Move}
    (places : Option.Rel L.inputs at₁ at₂) (h : Alike L known (Move.Alike L false) (x ()) (y ())) :
    Alike L known (Move.Alike L false) (resume at₁ >>= x) (resume at₂ >>= y) := by
  cases places with
  | none => exact h
  | some inputs =>
    simp only [resume]
    exact .update_bind id (fun _ _ related => L.withInput inputs related) h

theorem repeatBody_alike :
    Alike L known (Move.Alike L false) (repeatBody flags l) (repeatBody flags m) := by
  refine resume_bind_alike like.bodyAt (.pure ⟨.push (.loop ?_) (.same rfl), ⟨rfl, rfl⟩, ?_⟩)
  · exact { like with stage := rfl }
  · exact fun unknown => ⟨nofun, by simpa [Sound] using sound unknown, ⟨trivial, rfl⟩, nofun⟩

omit like sound in
theorem isSome_of_rel {inputs : Input → Input → Prop} {at₁ at₂ : Option Input}
    (places : Option.Rel inputs at₁ at₂) : at₂.isSome = at₁.isSome := by
  cases places <;> rfl

theorem checkCondition_alike (on : known = false → flags.executes = true) :
    Alike L known (Move.Alike L false) (checkCondition flags l) (checkCondition flags m) := by
  unfold checkCondition
  rw [isSome_of_rel like.conditionAt]
  refine .ite (fun _ => ?_) fun _ => repeatBody_alike like sound
  refine resume_bind_alike like.conditionAt (.pure ⟨.push (.loop ?_) (.same rfl), ⟨rfl, rfl⟩, ?_⟩)
  · exact { like with stage := rfl }
  · exact fun unknown => ⟨nofun, fun _ => on unknown, ⟨trivial, rfl⟩, fun _ _ => on unknown⟩

omit sound in
theorem leaveLoop_alike : Alike L known (Move.Alike L false) (leaveLoop l) (leaveLoop m) :=
  resume_bind_alike like.endAt (.pure ⟨.done _, trivial, fun _ => rfl⟩)

theorem afterBody_alike :
    Alike L known (Move.Alike L false) (afterBody flags l) (afterBody flags m) := by
  obtain ⟨stage, running, conditionAt, incrementAt, bodyAt, endAt⟩ := l
  obtain ⟨stage', running', conditionAt', incrementAt', bodyAt', endAt'⟩ := m
  obtain rfl : running' = running := like.running
  refine .session_bind fun s t related => ?_
  have ends : Option.Rel L.inputs (endAt.or (some s.input)) (endAt'.or (some t.input)) := by
    cases like.endAt with
    | none => exact .some (L.input related)
    | some inputs => exact .some inputs
  have like : Loop.Like L.inputs
      ⟨stage, running', conditionAt, incrementAt, bodyAt, endAt.or (some s.input)⟩
      ⟨stage', running', conditionAt', incrementAt', bodyAt', endAt'.or (some t.input)⟩ :=
    { like with endAt := ends }
  dsimp only
  rw [isSome_of_rel like.incrementAt]
  refine .ite (fun _ => leaveLoop_alike like) fun running => .ite (fun _ => ?_) fun _ => ?_
  · refine resume_bind_alike like.incrementAt (.pure ⟨.push (.loop ?_) (.same rfl), ⟨rfl, rfl⟩, ?_⟩)
    · exact { like with stage := rfl }
    · exact fun unknown => ⟨nofun, fun _ => sound unknown (by simpa using running),
        ⟨trivial, rfl⟩, nofun⟩
  · exact checkCondition_alike like sound fun unknown => sound unknown (by simpa using running)

end Loop

theorem stepLoop_alike {l m : Loop} (like : l.Like L.inputs m) (inner : Option Phase)
    (clear : known = false → Clear ⟨flags, .loop l⟩ inner) :
    Alike L known (Move.Alike L false) (stepLoop flags l inner) (stepLoop flags m inner) := by
  have sound : known = false → l.running = true → flags.executes = true :=
    fun unknown running => (clear unknown).1 (.inl running)
  obtain ⟨stage, running, conditionAt, incrementAt, bodyAt, endAt⟩ := l
  obtain ⟨stage', running', conditionAt', incrementAt', bodyAt', endAt'⟩ := m
  obtain rfl : stage' = stage := like.stage
  cases stage' with
  | opening =>
    refine .expect_bind (.next_bind fun t => ?_)
    split
    · exact startCondition_alike like sound
    · refine .pure ⟨.push (.loop { like with stage := rfl }) (.same rfl), ⟨rfl, rfl⟩,
        fun unknown => ?_⟩
      exact ⟨nofun, by simpa [Sound] using sound unknown, ⟨trivial, rfl⟩, nofun⟩
    · refine .unread_bind (.pure ⟨.push (.loop { like with stage := rfl }) (.same rfl), ⟨rfl, rfl⟩,
        fun unknown => ?_⟩)
      exact ⟨nofun, by simpa [Sound] using sound unknown, ⟨trivial, rfl⟩, nofun⟩
  | afterInit => exact .expect_bind (startCondition_alike like sound)
  | afterCondition =>
    refine .session_bind fun s t related => ?_
    rw [truthy_alike (known_of_reads clear) related]
    refine .expect_bind (startIncrement_alike { like with running := rfl } fun _ on => ?_)
    exact (Bool.and_eq_true_iff.mp on).1
  | afterIncrementScan => exact .expect_bind (startBody_alike like sound)
  | afterBody =>
    refine .same_bind (bodyReturns_alike _ inner) fun known' _ kept => ?_
    have sound : known' = false → running = true → flags.executes = true := by
      intro unknown
      refine sound ?_
      cases known with
      | false => rfl
      | true => rw [kept rfl] at unknown; cases unknown
    exact .ite (fun _ => .pure ⟨.done _, trivial, fun _ => rfl⟩) fun _ => afterBody_alike like sound
  | afterIncrement =>
    exact checkCondition_alike like sound fun unknown => (clear unknown).1 (.inr (.inl rfl))
  | afterLoopCondition =>
    obtain rfl : known = true := known_of_reads clear rfl
    refine .session_bind fun s t related => ?_
    rw [L.result related]
    refine .ite (fun _ => ?_) fun _ => leaveLoop_alike like
    exact repeatBody_alike { like with running := rfl } nofun

/-! ### Simple statements, declarations and returns -/

theorem bumpVariable_alike (op : Operator) (name : String) :
    Same L known (bumpVariable op name) (bumpVariable op name) := by
  refine .same_bind (.readVariable name) fun _ value _ =>
    .same_bind (.ofExcept _) fun known bumped _ scene scene' related => ?_
  exact ⟨true, fun _ => rfl, L.withResult bumped (L.assign name bumped related), .ok rfl⟩

theorem stepSimple_alike (nl : Bool) (stage : SimpleStage) (inner : Option Phase)
    (clear : known = false → Clear ⟨flags, .simple nl stage⟩ inner) :
    Alike L known (Move.Alike L false) (stepSimple flags nl stage) (stepSimple flags nl stage) := by
  have done : ∀ known, Alike L known (Move.Alike L false) (pure (.done .exprDone))
      (pure (.done .exprDone)) := fun _ => .pure ⟨.done _, trivial, fun _ => rfl⟩
  have value : ∀ seed, Alike L known (Move.Alike L false)
      (pure (.push ⟨flags, .simple nl .valued⟩ (newCond flags nl seed)))
      (pure (.push ⟨flags, .simple nl .valued⟩ (newCond flags nl seed))) := by
    refine fun seed => .pure ⟨.push (.same rfl) (.same rfl), ⟨rfl, rfl⟩, fun _ => ?_⟩
    exact ⟨nofun, trivial, ⟨trivial, rfl⟩, nofun⟩
  cases stage with
  | start =>
    refine .next_bind fun t => .ite (fun _ => .unread_bind (value none)) fun _ => ?_
    refine .next_bind fun behind => ?_
    split
    · refine .pure ⟨.push (.same rfl) (.same rfl), ⟨rfl, rfl⟩, fun _ => ?_⟩
      exact ⟨nofun, trivial, ⟨trivial, rfl⟩, fun _ => id⟩
    · refine .ite (fun _ => ?_) fun _ => done known
      exact .same_bind (bumpVariable_alike _ _) fun known _ _ => done known
    · exact .unread_bind (value (some t))
  | assigning name =>
    refine .ite (fun on => .update_bind id (fun s t related => ?_) (done known)) fun _ => done known
    obtain rfl : known = true := known_of_reads clear on
    rw [L.result related]
    exact L.assign name s.result related
  | valued => exact done known

theorem stepDeclarations_alike (nl : Bool) (inner : Option Phase) :
    Alike L known (Move.Alike L false) (stepDeclarations flags nl inner)
      (stepDeclarations flags nl inner) := by
  have declare : Alike L known (Move.Alike L false) (do
      let t ← nextToken .decList
      if t.kind ≠ .identifier then fail (.expectedName t)
      return Move.push ⟨flags, .declarations nl⟩ ⟨flags, .declaration nl t.text⟩) (do
      let t ← nextToken .decList
      if t.kind ≠ .identifier then fail (.expectedName t)
      return Move.push ⟨flags, .declarations nl⟩ ⟨flags, .declaration nl t.text⟩) := by
    refine .next_bind fun t => .ite (fun _ => ?_) fun _ => ?_
    · exact .bind (P := fun _ _ _ => False) (.fail _) fun _ _ _ _ no => no.elim
    · refine .pure ⟨.push (.same rfl) (.same rfl), ⟨rfl, rfl⟩, fun _ => ?_⟩
      exact ⟨nofun, trivial, ⟨trivial, by simp [reads]⟩, nofun⟩
  cases inner with
  | none => exact declare
  | some phase =>
    refine .next_bind fun t => .ite (fun _ => declare) fun _ => ?_
    exact .unread_bind (.pure ⟨.done _, trivial, fun _ => rfl⟩)

theorem stepDeclaration_alike (nl : Bool) (name : String) (inner : Option Phase)
    (clear : known = false → Clear ⟨flags, .declaration nl name⟩ inner) :
    Alike L known (Move.Alike L false) (stepDeclaration flags nl name inner)
      (stepDeclaration flags nl name inner) := by
  have done : Alike L known (Move.Alike L false) (pure (.done .decDone)) (pure (.done .decDone)) :=
    .pure ⟨.done _, trivial, fun _ => rfl⟩
  cases inner with
  | none =>
    refine .next_bind fun t => .ite (fun _ => ?_) fun _ => .unread_bind (.ite (fun _ => ?_) ?_)
    · refine .pure ⟨.push (.same rfl) (.same rfl), ⟨rfl, rfl⟩, fun _ => ?_⟩
      exact ⟨nofun, trivial, ⟨trivial, rfl⟩, fun _ => by simp [reads, gives, newCond]⟩
    · exact .update_bind id (fun _ _ related => L.setLocal name "" related) done
    · exact fun _ => done
  | some phase =>
    refine .session_bind fun s t related => .ite (fun on => ?_) fun _ => done
    obtain rfl : known = true := known_of_reads clear (by simp [reads, on])
    rw [L.result related]
    exact .update_bind id (fun _ _ related => L.setLocal name s.result related) done

theorem stepReturning_alike (inner : Option Phase) :
    Alike L known (Move.Alike L false) (stepReturning flags inner) (stepReturning flags inner) := by
  have finish : ∀ known, Alike L known (Move.Alike L false)
      (pure (.done (if flags.executes then .ret else .stmtDone)))
      (pure (.done (if flags.executes then .ret else .stmtDone))) :=
    fun _ => .pure ⟨.done _, trivial, fun _ => rfl⟩
  cases inner with
  | some phase => exact finish known
  | none =>
    refine .next_bind fun t => .unread_bind ?_
    split
    iterate 4 exact .ite (fun _ => .setResult_bind (finish true)) fun _ => finish known
    refine .pure ⟨.push (.same rfl) (.same rfl), ⟨rfl, rfl⟩, fun _ => ?_⟩
    exact ⟨nofun, trivial, ⟨trivial, rfl⟩, nofun⟩

/-- Every frame but that of a block. -/
theorem step_alike {f g : Frame} (like : f.Like L.inputs g) (inner : Option Phase)
    (clear : known = false → f.Clear inner) (other : ∀ scope, f.construct ≠ .block scope) :
    Alike L known (Move.Alike L f.gives) (f.step inner) (g.step inner) := by
  cases like with
  | loop like => exact stepLoop_alike like inner clear
  | same plain =>
    obtain ⟨flags, construct⟩ := f
    cases construct with
    | statement stage => exact stepStatement_alike stage inner
    | block scope => exact absurd rfl (other scope)
    | branch stage => exact stepBranch_alike stage inner clear
    | loop l => cases plain
    | simple nl stage => exact stepSimple_alike nl stage inner clear
    | declarations nl => exact stepDeclarations_alike nl inner
    | declaration nl name => exact stepDeclaration_alike nl name inner clear
    | returning => exact stepReturning_alike inner
    | cond nl stage => exact stepCond_alike nl stage inner clear
    | rel nl stage => exact stepRel_alike nl stage inner clear
    | expr nl terms => exact stepExpr_alike nl terms inner clear
    | call name stage => exact stepCall_alike name stage inner clear
    | arguments => exact stepArguments_alike inner clear

end Frame

/-! ### Sessions on one text -/

structure Session.Resembles (s t : Session) : Prop where
  input : t.input = s.input
  result : t.result = s.result
  call : t.call = s.call
  functions : t.functions = s.functions
  values : ∀ name, t.getVar? name = s.getVar? name

/-- A relation between sessions on one text that frames do not see and do not break. -/
structure Session.Unseen (R : Session → Session → Prop) : Prop where
  resembles : ∀ {s t}, R s t → s.Resembles t
  input : ∀ {s t} input, R s t → R { s with input } { t with input }
  token : ∀ {s t} token, R s t → R { s with token } { t with token }
  result : ∀ {s t} result, R s t → R { s with result } { t with result }
  call : ∀ {s t} call, R s t → R { s with call } { t with call }
  assign : ∀ {s t} name value, R s t → R (s.assign name value) (t.assign name value)
  setLocal : ∀ {s t} name value, R s t → R (s.setLocal name value) (t.setLocal name value)

def Session.Unseen.likeness {R : Session → Session → Prop} (unseen : Session.Unseen R) :
    Likeness where
  inputs := Eq
  sessions := fun _ => R
  faults := Eq
  next := by rintro i _ phase rfl; exact ⟨rfl, rfl⟩
  unread := by rintro i _ t rfl; rfl
  cause := fun _ => rfl
  malformed := by rintro i _ message rfl; rfl
  input := fun related => (unseen.resembles related).input.symm
  call := fun related => (unseen.resembles related).call
  functions := fun related => (unseen.resembles related).functions
  values := fun related => (unseen.resembles related).values
  result := fun related => (unseen.resembles related).result
  withInput := by rintro _ s t i _ rfl related; exact unseen.input i related
  withToken := unseen.token
  withResult := unseen.result
  withCall := unseen.call
  assign := unseen.assign
  setLocal := unseen.setLocal

namespace Frame

theorem Like.eq {f g : Frame} (like : f.Like Eq g) : g = f := by
  have places : ∀ {a b : Option Input}, Option.Rel Eq a b → b = a := by
    intro a b places
    cases places with
    | none => rfl
    | some same => rw [same]
  cases like with
  | same plain => rfl
  | @loop flags l m like =>
    have condition := places like.conditionAt
    have increment := places like.incrementAt
    have body := places like.bodyAt
    have last := places like.endAt
    have stage := like.stage
    have running := like.running
    cases l
    cases m
    simp_all

theorem move_eq {m n : Move} (like : m.Like Eq n) : n = m := by
  cases like with
  | push self inner => rw [self.eq, inner.eq]
  | stay self => rw [self.eq]
  | done phase => rfl
  | invoke target args saved => rfl

/-- On one text every frame but that of a block answers the same. -/
theorem step_blind {R : Session → Session → Prop} (unseen : Session.Unseen R) (f : Frame)
    (inner : Option Phase) (other : ∀ scope, f.construct ≠ .block scope) (scene scene' : Scene)
    (related : R scene.session scene'.session) :
    ((f.step inner).on scene').1 = ((f.step inner).on scene).1 ∧
      (∀ move, ((f.step inner).on scene).1 = .ok move → move.Bare) ∧
      R ((f.step inner).on scene).2.session ((f.step inner).on scene').2.session := by
  have places : ∀ i : Option Input, Option.Rel Eq i i := fun i => by cases i <;> constructor; rfl
  have like : f.Like Eq f := by
    by_cases loop : ∃ l, f.construct = .loop l
    · obtain ⟨flags, construct⟩ := f
      obtain ⟨l, rfl⟩ := loop
      exact .loop ⟨rfl, rfl, places _, places _, places _, places _⟩
    · refine .same ?_
      unfold isLoop
      split
      · exact absurd ⟨_, ‹_›⟩ loop
      · rfl
  obtain ⟨_, _, related', answers⟩ :=
    step_alike (L := unseen.likeness) like inner (by simp : true = false → _) other scene scene'
      related
  generalize (f.step inner).on scene = out at answers related' ⊢
  generalize (f.step inner).on scene' = out' at answers related' ⊢
  obtain ⟨r, last⟩ := out
  obtain ⟨r', last'⟩ := out'
  cases answers with
  | error same =>
    obtain rfl := same
    exact ⟨rfl, by simp, related'⟩
  | ok alike =>
    obtain rfl := move_eq alike.1
    refine ⟨rfl, ?_, related'⟩
    rintro _ ⟨⟩
    exact alike.2.1

end Frame

end Scriptlet
