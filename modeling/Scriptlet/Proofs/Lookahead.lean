import Scriptlet.Proofs.Dealing
import Scriptlet.Proofs.Indifference

/-!
The one token of lookahead. Frames read a token too far and put it back, and the frame that goes on
may read it where newlines count or where they are blank space. A walk through the frames shows that
each of them, if it finds no newline in the slot where it cannot do with one, keeps its dealings
with the reader in order and leaves the slot so that whoever acts next finds it as it needs it.
-/

namespace Scriptlet

/-! ### What frames expect of the slot -/

namespace Frame

def Loop.places (l : Loop) : List Input :=
  [l.conditionAt, l.incrementAt, l.bodyAt, l.endAt].reduceOption

theorem Loop.mem_places {l : Loop} {place : Input} :
    place ∈ l.places ↔ l.conditionAt = some place ∨ l.incrementAt = some place ∨
      l.bodyAt = some place ∨ l.endAt = some place := by
  simp [places, List.reduceOption_mem_iff, eq_comm]

def places (f : Frame) : List Input :=
  match f.construct with
  | .loop l => l.places
  | _ => []

def wantsClear (f : Frame) (inner : Option Phase) : Bool :=
  match f.construct with
  | .statement _ | .block _ | .returning => false
  | .branch .opening | .branch .afterCondition => true
  | .branch _ => false
  | .loop l =>
    match l.stage with
    | .opening | .afterInit | .afterCondition | .afterIncrementScan => true
    | _ => false
  | .simple _ .start => true
  | .declarations nl => inner.isNone || !nl
  | .cond _ (.start none) | .rel _ (.start none) => true
  | .expr _ { stage := .term none, .. } | .expr _ { stage := .afterParen, .. } => true
  | .simple nl _ | .declaration nl _ | .cond nl _ | .rel nl _ | .expr nl _ => !nl
  | .call _ _ | .arguments => true

def leavesClear (f : Frame) : Bool :=
  match f.construct with
  | .statement _ | .block _ | .branch _ | .loop _ | .returning => false
  | .simple nl _ | .declarations nl | .declaration nl _ | .cond nl _ | .rel nl _ | .expr nl _ =>
    !nl
  | .call _ _ | .arguments => true

def bare (f : Frame) : Bool := !f.isLoop && f.seed?.isNone

structure Loop.Clear (l : Loop) : Prop where
  condition : ∀ i, l.conditionAt = some i → i.Clear
  increment : ∀ i, l.incrementAt = some i → i.Clear

/-- A token that a frame has been handed is a name, and a loop goes back to its header with no
newline put back. -/
structure Tidy (f : Frame) : Prop where
  seed : ∀ t, f.seed? = some t → t.kind = .identifier
  loop : ∀ l, f.construct = .loop l → l.Clear

/-- Whatever is left in the slot for a frame that waits, it can go on. -/
def Trusts (waiting above : Frame) : Prop :=
  ∀ phase, waiting.wantsClear (some phase) = true → above.leavesClear = true

structure Replaces (heir f : Frame) : Prop where
  tidy : heir.Tidy
  leaves : heir.leavesClear = f.leavesClear

theorem tidy_of_plain {f : Frame} (plain : f.isLoop = false)
    (seed : ∀ t, f.seed? = some t → t.kind = .identifier) : f.Tidy where
  seed := seed
  loop l loop := by
    rw [isLoop, loop] at plain
    cases plain

theorem tidy_of_bare {f : Frame} (bare : f.bare = true) : f.Tidy := by
  simp only [Frame.bare, Bool.and_eq_true, Bool.not_eq_true', Option.isNone_iff_eq_none] at bare
  obtain ⟨plain, unseeded⟩ := bare
  refine tidy_of_plain plain fun t seeded => ?_
  rw [unseeded] at seeded
  cases seeded

theorem tidy_loop {flags : Flags} {l : Loop} (neat : l.Clear) : Tidy ⟨flags, .loop l⟩ where
  seed := nofun
  loop := by
    rintro _ ⟨⟩
    exact neat

end Frame

def Move.Suits (places : List Input) (i : Input) (f : Frame) : Move → Scene → Prop
  | .done _, scene => scene.Steady places i f.leavesClear
  | .stay self, scene => self.Replaces f ∧ scene.Steady places i (self.wantsClear none)
  | .push self inner, scene =>
    self.Replaces f ∧ self.Trusts inner ∧ inner.Tidy ∧
      scene.Steady places i (inner.wantsClear none)
  | .invoke _ _ _, scene => scene.Steady places i false

namespace Frame

open Act Scene

variable {places : List Input} {i : Input} {flags : Flags} {b : Bool}

abbrev Provides (places : List Input) (i : Input) (f : Frame) (P : Scene → Prop) (x : Act Move) :
    Prop :=
  Act.Minds places i P x fun move => move.Suits places i f

theorem done_provides {f : Frame} {phase : Phase} (slot : f.leavesClear = true → b = true) :
    f.Provides places i (Steady places i b) (pure (.done phase)) :=
  .pure fun _ steady => steady.weaken slot

theorem stay_provides {f self : Frame} (replaces : self.Replaces f)
    (slot : self.wantsClear none = true → b = true) :
    f.Provides places i (Steady places i b) (pure (.stay self)) :=
  .pure fun _ steady => ⟨replaces, steady.weaken slot⟩

theorem push_provides {f self inner : Frame} (replaces : self.Replaces f)
    (trusts : self.Trusts inner) (tidy : inner.Tidy)
    (slot : inner.wantsClear none = true → b = true) :
    f.Provides places i (Steady places i b) (pure (.push self inner)) :=
  .pure fun _ steady => ⟨replaces, trusts, tidy, steady.weaken slot⟩

theorem push_bare_provides {f self inner : Frame} (heir : self.bare = true)
    (leaves : self.leavesClear = f.leavesClear) (fresh : inner.bare = true)
    (trusts : self.Trusts inner) (slot : inner.wantsClear none = true → b = true) :
    f.Provides places i (Steady places i b) (pure (.push self inner)) :=
  push_provides ⟨tidy_of_bare heir, leaves⟩ trusts (tidy_of_bare fresh) slot

/-! Expressions -/

theorem finishTier_provides {f : Frame} {nl : Bool} {t : Token} (value : String) {phase : Phase}
    (leaves : f.leavesClear = !nl) (line : t.kind = .newline → nl = true) :
    f.Provides places i (JustRead places i (lookahead nl) t) (finishTier flags t value phase) := by
  have done : f.Provides places i (Steady places i !nl) (pure (.done phase)) :=
    done_provides fun h => leaves ▸ h
  exact .leave_bind line (.ite (fun _ => .bind (.setResult value) fun _ => done) fun _ => done)

theorem closeCond_provides (nl : Bool) (stage : CondStage) (value : String) :
    Provides places i ⟨flags, .cond nl stage⟩ (Steady places i !nl) (closeCond flags nl value) := by
  have joins : ∀ op, Provides places i ⟨flags, .cond nl stage⟩ (Steady places i true)
      (pure (joinCond flags nl value op)) := fun op =>
    push_bare_provides rfl rfl rfl (fun _ h => h) fun _ => rfl
  refine .look_bind fun t line => ?_
  split
  · exact .taken (joins .and)
  · exact .taken (joins .or)
  · exact finishTier_provides value rfl line

theorem stepCond_provides {nl : Bool} {stage : CondStage} {inner : Option Phase}
    (tidy : Tidy ⟨flags, .cond nl stage⟩) :
    Provides places i ⟨flags, .cond nl stage⟩
      (Steady places i (wantsClear ⟨flags, .cond nl stage⟩ inner)) (stepCond flags nl stage) := by
  cases stage with
  | start seed =>
    refine push_provides ⟨tidy_of_bare rfl, rfl⟩ (fun _ h => h) (tidy_of_plain rfl tidy.seed) ?_
    cases seed <;> exact id
  | first =>
    rw [stepCond_first]
    exact .bind (.value .takeResult) fun value => closeCond_provides nl .first value
  | joining left op settled =>
    rw [stepCond_joining]
    refine .bind (.value (.ite (fun _ => ?_) fun _ => ?_)) fun value =>
      closeCond_provides nl (.joining left op settled) value
    · exact .pure fun _ steady => steady
    · exact .session_bind fun scene _ => .ofExcept (Value.logical_fails op left _)

theorem closeRel_provides (nl : Bool) (stage : RelStage) (value : String) :
    Provides places i ⟨flags, .rel nl stage⟩ (Steady places i !nl) (closeRel flags nl value) := by
  refine .look_bind fun t line => ?_
  split
  · refine .ite (fun _ => .taken (b := true) ?_) fun _ => finishTier_provides value rfl line
    exact push_bare_provides rfl rfl rfl (fun _ h => h) fun _ => rfl
  · exact finishTier_provides value rfl line

theorem stepRel_provides {nl : Bool} {stage : RelStage} {inner : Option Phase}
    (tidy : Tidy ⟨flags, .rel nl stage⟩) :
    Provides places i ⟨flags, .rel nl stage⟩
      (Steady places i (wantsClear ⟨flags, .rel nl stage⟩ inner)) (stepRel flags nl stage) := by
  cases stage with
  | start seed =>
    refine push_provides ⟨tidy_of_bare rfl, rfl⟩ (fun _ h => h) (tidy_of_plain rfl tidy.seed) ?_
    cases seed <;> exact id
  | first =>
    rw [stepRel_first]
    exact .bind (.value .takeResult) fun value => closeRel_provides nl .first value
  | joining left op =>
    rw [stepRel_joining]
    refine .bind (.value (.session_bind fun scene _ => ?_)) fun value =>
      closeRel_provides nl (.joining left op) value
    exact .bind (.ofExcept (Value.relate_fails op left _)) fun _ => .pure fun _ steady => steady

theorem closeTerm_provides (nl : Bool) (terms terms' : Terms) (term : String) :
    Provides places i ⟨flags, .expr nl terms⟩ (Steady places i !nl)
      (closeTerm flags nl terms' term) := by
  rw [closeTerm_eq]
  refine .bind (.value (.ofExcept (combine_fails terms' term))) fun value =>
    .look_bind fun t line => ?_
  split
  · refine .ite (fun _ => .taken (b := true) ?_) fun _ => finishTier_provides value rfl line
    exact stay_provides ⟨tidy_of_bare rfl, rfl⟩ fun _ => rfl
  · exact finishTier_provides value rfl line

/-- A term begins with a token just read, or with a name that has been handed on. -/
theorem openTerm_provides {nl : Bool} (terms : Terms) {t : Token}
    (line : nl = false → b = true)
    (read : t.kind ≠ .identifier → b = true ∧ t.kind ≠ .newline) :
    Provides places i ⟨flags, .expr nl terms⟩ (Steady places i b)
      (openTerm flags nl terms t) := by
  have close : ∀ value, Provides places i ⟨flags, .expr nl terms⟩ (Steady places i b)
      (closeTerm flags nl terms value) := fun value =>
    (closeTerm_provides nl terms terms value).weaken fun _ steady =>
      steady.weaken fun blank => line (by simpa using blank)
  by_cases name : t.kind = .identifier
  · obtain ⟨kind, text⟩ := t
    obtain rfl : kind = .identifier := name
    rw [openTerm_identifier]
    exact .bind (.value (.readVariable text)) close
  · obtain ⟨rfl, proper⟩ := read name
    unfold openTerm
    split
    · exact close t.text
    · exact absurd ‹_› name
    · exact push_bare_provides rfl rfl rfl (fun _ _ => rfl) fun _ => rfl
    · exact push_bare_provides rfl rfl rfl (fun _ _ => rfl) fun _ => rfl
    · exact stay_provides ⟨tidy_of_bare rfl, rfl⟩ fun _ => rfl
    · exact stay_provides ⟨tidy_of_bare rfl, rfl⟩ fun _ => rfl
    · exact .fail (Fault.Cause.spares_of_found rfl proper)

theorem stepExpr_provides {nl : Bool} {terms : Terms} {inner : Option Phase}
    (tidy : Tidy ⟨flags, .expr nl terms⟩) :
    Provides places i ⟨flags, .expr nl terms⟩
      (Steady places i (wantsClear ⟨flags, .expr nl terms⟩ inner)) (stepExpr flags nl terms) := by
  have close : Provides places i ⟨flags, .expr nl terms⟩ (Steady places i !nl)
      (innerValue flags >>= closeTerm flags nl terms) :=
    .bind (.value .takeResult) fun value => closeTerm_provides nl terms terms value
  obtain ⟨stage, left, unary⟩ := terms
  cases stage with
  | term seed =>
    cases seed with
    | some t =>
      refine openTerm_provides (b := !nl) _ (by simp) fun other => ?_
      exact absurd (tidy.seed t rfl) other
    | none =>
      exact .read_bind rfl fun t proper =>
        .taken (openTerm_provides (b := true) _ (fun _ => rfl) fun _ => ⟨rfl, proper⟩)
  | afterParen =>
    exact .expect_bind rfl (close.weaken fun _ steady => steady.weaken fun _ => rfl)
  | afterCall => exact close

theorem stepCall_provides (name : String) (stage : CallStage) :
    Provides places i ⟨flags, .call name stage⟩ (Steady places i true)
      (stepCall flags name stage) := by
  have arguments : ∀ target, Provides places i ⟨flags, .call name stage⟩ (Steady places i true)
      (pure (.push ⟨flags, .call name (.invoking target)⟩ ⟨flags, .arguments⟩)) := fun target =>
    push_bare_provides rfl rfl rfl (fun _ _ => rfl) fun _ => rfl
  unfold stepCall
  split
  · refine .expect_bind rfl (.ite (fun _ => .session_at_bind fun s => ?_) fun _ => arguments none)
    split
    · exact .bind (.setSession s rfl) fun _ => arguments _
    · exact (Minds.fail (Fault.Cause.spares_of_none rfl)).weaken fun _ start => start.1
  · exact done_provides fun _ => rfl
  · refine .session_bind fun scene _ => .bind (.emit rfl) fun _ => .bind (.setResult "") fun _ => ?_
    exact .pure fun _ steady => steady.weaken nofun

theorem stepArguments_provides (inner : Option Phase) :
    Provides places i ⟨flags, .arguments⟩ (Steady places i true) (stepArguments flags inner) := by
  have argument : Provides places i ⟨flags, .arguments⟩ (Steady places i true)
      (pure (.push ⟨flags, .arguments⟩ (newCond flags false none))) :=
    push_bare_provides rfl rfl rfl (fun _ _ => rfl) fun _ => rfl
  have done : Provides places i ⟨flags, .arguments⟩ (Steady places i true)
      (pure (.done .argListDone)) := done_provides fun _ => rfl
  cases inner with
  | none =>
    exact .read_bind rfl fun t proper =>
      .ite (fun _ => .taken done) fun _ => .unread_bind (fun _ => proper) argument
  | some phase =>
    have next : Provides places i ⟨flags, .arguments⟩ (Steady places i true)
        (afterArgument flags) := by
      refine .read_bind rfl fun t proper => ?_
      split
      · exact .taken argument
      · exact .taken done
      · exact .taken (b := true) (.fail (Fault.Cause.spares_of_found rfl proper))
    refine .ite (fun _ => .bind ?_ fun _ => next) fun _ => next
    exact .bind .takeResult fun _ => .update fun _ => rfl

/-! Statements -/

theorem openStatement_provides (t : Token) :
    Provides places i ⟨flags, .statement .start⟩ (JustRead places i .stmt t)
      (openStatement flags t) := by
  have forward : ∀ (inner : Construct) terminated, Tidy ⟨flags, inner⟩ →
      Provides places i ⟨flags, .statement .start⟩ (Steady places i true)
        (pure (.push ⟨flags, .statement (.forward terminated)⟩ ⟨flags, inner⟩)) :=
    fun inner terminated tidy =>
      push_provides ⟨tidy_of_bare rfl, rfl⟩ nofun tidy fun _ => rfl
  have done : ∀ phase, Provides places i ⟨flags, .statement .start⟩ (Steady places i true)
      (pure (.done phase)) := fun _ => done_provides nofun
  unfold openStatement
  split
  · exact .taken (b := true) (stay_provides ⟨tidy_of_bare rfl, rfl⟩ fun _ => rfl)
  · exact .taken (done _)
  · exact .taken (done _)
  · exact .taken (done _)
  · exact .taken (forward _ _ (tidy_of_bare rfl))
  · exact .taken (forward _ _ (tidy_of_bare rfl))
  · exact .taken (forward _ _ (tidy_loop ⟨nofun, nofun⟩))
  · exact .taken (forward _ _ (tidy_of_bare rfl))
  · exact .taken (forward _ _ (tidy_of_bare rfl))
  iterate 6
    rename_i kind
    exact .unread_bind (fun _ => by simp [kind]) (forward _ _ (tidy_of_bare rfl))
  refine .taken (b := true) (.fail (Fault.Cause.spares_of_found rfl ?_))
  assumption

theorem terminate_provides :
    Provides places i ⟨flags, .statement (.forward true)⟩ (Steady places i false) terminate := by
  have done : Provides places i ⟨flags, .statement (.forward true)⟩ (Steady places i false)
      (pure (.done .stmtDone)) := done_provides nofun
  refine .next_bind nofun fun t _ => ?_
  split
  · exact .taken done
  · exact .taken done
  iterate 3 exact .unread_bind (b := false) nofun done
  refine .taken (b := false) (.fail (Fault.Cause.spares_of_found rfl ?_))
  assumption

theorem stepStatement_provides (stage : StatementStage) (inner : Option Phase) :
    Provides places i ⟨flags, .statement stage⟩ (Steady places i false)
      (stepStatement flags stage inner) := by
  cases stage with
  | start => exact .next_bind nofun fun t _ => openStatement_provides t
  | forward terminated =>
    refine .ite (fun _ => done_provides nofun) fun _ => ?_
    cases terminated with
    | true => exact terminate_provides
    | false => exact done_provides nofun

theorem stepBlock_provides (scope : Option BlockId) (inner : Option Phase) :
    Provides places i ⟨flags, .block scope⟩ (Steady places i false)
      (stepBlock flags scope inner) := by
  have again : ∀ scope', Provides places i ⟨flags, .block scope⟩ (Steady places i false)
      (pure (.push ⟨flags, .block scope'⟩ (newStatement flags))) := fun scope' =>
    push_bare_provides rfl rfl rfl nofun nofun
  have leave : ∀ phase, Provides places i ⟨flags, .block scope⟩ (Steady places i false)
      (leaveBlock scope phase) := by
    intro phase
    cases scope with
    | none => exact done_provides nofun
    | some id => exact .bind (.closeBlock id) fun _ => done_provides nofun
  cases inner with
  | none =>
    refine .ite (fun _ => ?_) fun _ => again none
    exact .bind .openBlock fun id => .bind (.emit rfl) fun _ => again (some id)
  | some phase =>
    cases phase with
    | stmtDone => exact again scope
    | stmtBlockDone => exact leave .stmtBlockDone
    | ret => exact leave .ret
    | _ => exact .fail (Fault.Cause.spares_of_none rfl)

/-- Looking at the phase in which a body has finished is not reading. -/
theorem bodyReturns_bind_provides {f : Frame} {P : Scene → Prop} (clause : Fault.Clause)
    (inner : Option Phase) {x : Act Move} (le : ∀ scene, P scene → scene.Steady places i false)
    (slot : f.leavesClear = false) (h : f.Provides places i P x) :
    f.Provides places i P
      (bodyReturns clause inner >>= fun returns => if returns then pure (.done .ret) else x) := by
  have looks : Minds places i P (bodyReturns clause inner) fun _ => P := by
    unfold bodyReturns
    split
    · exact .pure fun _ start => start
    iterate 3 exact (Minds.fail (Fault.Cause.spares_of_none rfl)).weaken le
    · exact .pure fun _ start => start
  refine .bind looks fun returns => .ite (fun _ => ?_) fun _ => h
  exact (done_provides (by simp [slot])).weaken le

theorem stepBranch_provides (stage : BranchStage) (inner : Option Phase) :
    Provides places i ⟨flags, .branch stage⟩
      (Steady places i (wantsClear ⟨flags, .branch stage⟩ inner))
      (stepBranch flags stage inner) := by
  have body : ∀ self taken, (∀ phase, wantsClear ⟨flags, .branch self⟩ (some phase) = false) →
      Provides places i ⟨flags, .branch stage⟩ (Steady places i true)
        (pure (.push ⟨flags, .branch self⟩ (newStatement (flags.executeIf taken)))) :=
    fun self taken free =>
      push_bare_provides rfl rfl rfl (fun phase wants => by simp [free] at wants) fun _ => rfl
  have stay : ∀ taken, Provides places i ⟨flags, .branch stage⟩ (Steady places i false)
      (pure (.stay ⟨flags, .branch (.seekElse taken)⟩)) := fun taken =>
    stay_provides ⟨tidy_of_bare rfl, rfl⟩ nofun
  have done : Provides places i ⟨flags, .branch stage⟩ (Steady places i false)
      (pure (.done .stmtDone)) := done_provides nofun
  cases stage with
  | opening =>
    refine .expect_bind rfl ?_
    exact push_bare_provides rfl rfl rfl (fun _ _ => rfl) fun _ => rfl
  | afterCondition => exact .session_bind fun scene _ => .expect_bind rfl (body _ _ fun _ => rfl)
  | afterThen taken =>
    exact bodyReturns_bind_provides .ifClause inner (fun _ steady => steady) rfl (stay taken)
  | seekElse taken =>
    refine .next_bind nofun fun t _ => ?_
    split
    · exact .taken (stay taken)
    · exact .taken (body _ _ fun _ => rfl)
    · exact .unread_bind (b := false) nofun done
  | afterElse =>
    exact bodyReturns_bind_provides .elseClause inner (fun _ steady => steady) rfl done

/-! Loops -/

section Loop

variable {l : Loop} (l₀ : Loop) (neat : l.Clear)
include neat

theorem startBody_provides :
    Provides places i ⟨flags, .loop l₀⟩ (Steady places i b) (startBody flags l) :=
  .session_bind fun _ _ =>
    push_provides ⟨tidy_loop { neat with }, rfl⟩ nofun (tidy_of_bare rfl) nofun

theorem startIncrement_provides :
    Provides places i ⟨flags, .loop l₀⟩ (Steady places i true) (startIncrement flags l) := by
  refine .session_bind fun scene here => .read_bind rfl fun t proper =>
    .ite (fun _ => ?_) fun _ => ?_
  · exact .taken (b := true) (startBody_provides l₀ neat)
  · refine .unread_bind (fun _ => proper) (push_provides
      ⟨tidy_loop { neat with increment := ?_ }, rfl⟩ (fun _ _ => rfl) (tidy_of_bare rfl)
      fun _ => rfl)
    rintro _ ⟨⟩
    exact here.2 rfl

theorem startCondition_provides :
    Provides places i ⟨flags, .loop l₀⟩ (Steady places i true) (startCondition flags l) := by
  refine .session_bind fun scene here => .read_bind rfl fun t proper =>
    .ite (fun _ => ?_) fun _ => ?_
  · exact .taken (startIncrement_provides (l := { l with running := flags.executes }) l₀
      { neat with })
  · refine .unread_bind (fun _ => proper) (push_provides
      ⟨tidy_loop { neat with condition := ?_ }, rfl⟩ (fun _ _ => rfl) (tidy_of_bare rfl)
      fun _ => rfl)
    rintro _ ⟨⟩
    exact here.2 rfl

variable (known : ∀ place ∈ l.places, place = i ∨ place ∈ l₀.places)
include known

omit neat in
theorem resume_bind_provides {f : Frame} {place : Option Input} {x : Unit → Act Move}
    (within : ∀ k, place = some k → k ∈ l.places)
    (slot : b = true → ∃ k, place = some k ∧ k.Clear)
    (h : f.Provides l₀.places i (Steady l₀.places i b) (x ())) :
    f.Provides l₀.places i (Untouched l₀.places i false) (resume place >>= x) := by
  cases place with
  | none =>
    refine h.weaken fun scene untouched => untouched.steady.weaken fun yes => ?_
    obtain ⟨k, found, -⟩ := slot yes
    cases found
  | some k =>
    refine .resume_bind (known k (within k rfl)) (fun yes => ?_) h
    obtain ⟨_, ⟨⟩, proper⟩ := slot yes
    exact proper

theorem repeatBody_provides :
    Provides l₀.places i ⟨flags, .loop l₀⟩ (Untouched l₀.places i false)
      (repeatBody flags l) :=
  resume_bind_provides (b := false) l₀ known
    (fun _ found => Loop.mem_places.mpr (.inr (.inr (.inl found)))) nofun
    (push_provides ⟨tidy_loop { neat with }, rfl⟩ nofun (tidy_of_bare rfl) nofun)

theorem checkCondition_provides :
    Provides l₀.places i ⟨flags, .loop l₀⟩ (Untouched l₀.places i false)
      (checkCondition flags l) := by
  refine .ite (fun held => ?_) fun _ => repeatBody_provides l₀ neat known
  obtain ⟨k, held⟩ := Option.isSome_iff_exists.mp held
  exact resume_bind_provides l₀ known (fun _ found => Loop.mem_places.mpr (.inl found))
    (fun _ => ⟨k, held, neat.condition k held⟩)
    (push_provides ⟨tidy_loop { neat with }, rfl⟩ nofun (tidy_of_bare rfl) fun _ => rfl)

omit neat in
theorem leaveLoop_provides :
    Provides l₀.places i ⟨flags, .loop l₀⟩ (Untouched l₀.places i false)
      (leaveLoop l) :=
  resume_bind_provides (b := false) l₀ known
    (fun _ found => Loop.mem_places.mpr (.inr (.inr (.inr found)))) nofun (done_provides nofun)

theorem afterBody_provides :
    Provides l₀.places i ⟨flags, .loop l₀⟩ (Untouched l₀.places i false)
      (afterBody flags l) := by
  refine .session_bind fun scene untouched => ?_
  have known : ∀ place ∈ Loop.places { l with endAt := l.endAt.or (some scene.session.input) },
      place = i ∨ place ∈ l₀.places := by
    intro place listed
    rcases Loop.mem_places.mp listed with found | found | found | found
    · exact known place (Loop.mem_places.mpr (.inl found))
    · exact known place (Loop.mem_places.mpr (.inr (.inl found)))
    · exact known place (Loop.mem_places.mpr (.inr (.inr (.inl found))))
    · rcases Option.or_eq_some_iff.mp found with found | ⟨-, found⟩
      · exact known place (Loop.mem_places.mpr (.inr (.inr (.inr found))))
      · exact .inl ((Option.some.inj found).symm.trans untouched.1.input_eq)
  refine .ite (fun _ => leaveLoop_provides l₀ known) fun _ => .ite (fun held => ?_) fun _ => ?_
  · obtain ⟨k, held⟩ := Option.isSome_iff_exists.mp held
    exact resume_bind_provides l₀ known (fun _ found => Loop.mem_places.mpr (.inr (.inl found)))
      (fun _ => ⟨k, held, neat.increment k held⟩)
      (push_provides ⟨tidy_loop { neat with }, rfl⟩ nofun (tidy_of_bare rfl) fun _ => rfl)
  · exact checkCondition_provides l₀ { neat with } known

end Loop

theorem stepLoop_provides {l : Loop} (neat : l.Clear) (inner : Option Phase) :
    Provides l.places i ⟨flags, .loop l⟩
      (Untouched l.places i (wantsClear ⟨flags, .loop l⟩ inner)) (stepLoop flags l inner) := by
  have reads : ∀ {x : Act Move}, wantsClear ⟨flags, .loop l⟩ inner = true →
      Provides l.places i ⟨flags, .loop l⟩ (Steady l.places i true) x →
      Provides l.places i ⟨flags, .loop l⟩
        (Untouched l.places i (wantsClear ⟨flags, .loop l⟩ inner)) x :=
    fun wants h => h.weaken fun _ start => start.steady.weaken fun _ => wants
  have returns : ∀ {x : Act Move},
      Provides l.places i ⟨flags, .loop l⟩ (Untouched l.places i false) x →
      Provides l.places i ⟨flags, .loop l⟩
        (Untouched l.places i (wantsClear ⟨flags, .loop l⟩ inner)) x :=
    fun h => h.weaken fun _ start => start.weaken nofun
  have known : ∀ place ∈ l.places, place = i ∨ place ∈ l.places := fun _ listed => .inr listed
  unfold stepLoop
  split <;> rename_i stage
  · refine reads (by simp [wantsClear, stage]) (.expect_bind rfl ?_)
    refine .read_bind rfl fun t proper => ?_
    split
    · exact .taken (startCondition_provides l neat)
    · exact .taken (b := true) (push_provides ⟨tidy_loop { neat with }, rfl⟩ (fun _ _ => rfl)
        (tidy_of_bare rfl) fun _ => rfl)
    · exact .unread_bind (fun _ => proper) (push_provides ⟨tidy_loop { neat with }, rfl⟩
        (fun _ _ => rfl) (tidy_of_bare rfl) fun _ => rfl)
  · exact reads (by simp [wantsClear, stage]) (.expect_bind rfl (startCondition_provides l neat))
  · refine reads (by simp [wantsClear, stage]) (.session_bind fun scene _ => .expect_bind rfl ?_)
    exact startIncrement_provides (l := { l with running := _ }) l { neat with }
  · exact reads (by simp [wantsClear, stage]) (.expect_bind rfl (startBody_provides l neat))
  · exact returns (bodyReturns_bind_provides .forClause inner
      (fun _ untouched => untouched.steady) rfl (afterBody_provides l neat known))
  · exact returns (checkCondition_provides l neat known)
  · refine returns (.session_bind fun scene _ => .ite (fun _ => ?_) fun _ =>
      leaveLoop_provides l known)
    exact repeatBody_provides (l := { l with running := true }) l { neat with } known

/-! Simple statements, declarations and `return` -/

theorem bumpVariable_minds (op : Operator) (name : String) :
    Minds places i (Steady places i b) (bumpVariable op name) fun _ =>
      Steady places i b :=
  .bind (.readVariable name) fun _ => .bind (.ofExcept (Value.bump_fails op _)) fun _ =>
    .update fun _ => rfl

theorem stepSimple_provides (nl : Bool) (stage : SimpleStage) (inner : Option Phase) :
    Provides places i ⟨flags, .simple nl stage⟩
      (Steady places i (wantsClear ⟨flags, .simple nl stage⟩ inner))
      (stepSimple flags nl stage) := by
  have done : Provides places i ⟨flags, .simple nl stage⟩ (Steady places i !nl)
      (pure (.done .exprDone)) := done_provides id
  cases stage with
  | start =>
    have push : ∀ stage', (∀ phase, wantsClear ⟨flags, .simple nl stage'⟩ (some phase) = !nl) →
        Provides places i ⟨flags, .simple nl .start⟩ (Steady places i true)
          (pure (.push ⟨flags, .simple nl stage'⟩ (newCond flags nl none))) := fun stage' waits =>
      push_bare_provides rfl rfl rfl (fun phase wants => (waits phase).symm.trans wants)
        fun _ => rfl
    refine .read_bind rfl fun t proper => .ite (fun _ => ?_) fun name => ?_
    · exact .unread_bind (fun _ => proper) (push .valued fun _ => rfl)
    have name : t.kind = .identifier := by simpa using name
    refine .taken (.look_bind fun behind line => ?_)
    split
    · exact .taken (push _ fun _ => rfl)
    · exact .taken (.ite (fun _ => .bind (bumpVariable_minds _ t.text) fun _ => done) fun _ => done)
    · refine .leave_bind line (push_provides ⟨tidy_of_bare rfl, rfl⟩ (fun _ wants => wants)
        (tidy_of_plain rfl ?_) id)
      rintro _ ⟨⟩
      exact name
  | assigning name =>
    exact .ite (fun _ => .bind (.update fun _ => rfl) fun _ => done) fun _ => done
  | valued => exact done

theorem stepDeclarations_provides (nl : Bool) (inner : Option Phase) :
    Provides places i ⟨flags, .declarations nl⟩
      (Steady places i (wantsClear ⟨flags, .declarations nl⟩ inner))
      (stepDeclarations flags nl inner) := by
  have declare : Provides places i ⟨flags, .declarations nl⟩ (Steady places i true) (do
      let t ← nextToken .decList
      if t.kind ≠ .identifier then fail (.expectedName t)
      return Move.push ⟨flags, .declarations nl⟩ ⟨flags, .declaration nl t.text⟩) := by
    refine .read_bind rfl fun t proper => .taken (b := true) (.ite (fun _ => ?_) fun _ => ?_)
    · exact .bind (R := fun _ _ => False) (.fail (Fault.Cause.spares_of_found rfl proper))
        fun _ _ => False.elim
    · exact push_bare_provides rfl rfl rfl (fun _ wants => wants) fun _ => rfl
  cases inner with
  | none => exact declare
  | some phase =>
    exact .look_bind fun t line =>
      .ite (fun _ => .taken declare) fun _ => .leave_bind line (done_provides id)

theorem stepDeclaration_provides (nl : Bool) (name : String) (inner : Option Phase) :
    Provides places i ⟨flags, .declaration nl name⟩ (Steady places i !nl)
      (stepDeclaration flags nl name inner) := by
  have done : Provides places i ⟨flags, .declaration nl name⟩ (Steady places i !nl)
      (pure (.done .decDone)) := done_provides id
  have bound : ∀ value, Provides places i ⟨flags, .declaration nl name⟩ (Steady places i !nl) (do
      if flags.executes then update (·.setLocal name value)
      return Move.done .decDone) := fun value =>
    .ite (fun _ => .bind (.update fun _ => rfl) fun _ => done) fun _ => done
  cases inner with
  | none =>
    refine .look_bind fun t line => .ite (fun _ => .taken (b := true) ?_) fun _ =>
      .leave_bind line (bound "")
    exact push_bare_provides rfl rfl rfl (fun _ wants => wants) fun _ => rfl
  | some phase => exact .session_bind fun scene _ => bound scene.session.result

theorem stepReturning_provides (inner : Option Phase) :
    Provides places i ⟨flags, .returning⟩ (Steady places i false) (stepReturning flags inner) := by
  have finish : Provides places i ⟨flags, .returning⟩ (Steady places i false)
      (pure (.done (if flags.executes then .ret else .stmtDone))) := done_provides nofun
  cases inner with
  | some phase => exact finish
  | none =>
    refine .next_bind nofun fun t _ => ?_
    by_cases newline : t.kind = .newline
    · refine .unread_bind (b := false) nofun ?_
      split
      iterate 4 exact .ite (fun _ => .bind (.setResult "") fun _ => finish) fun _ => finish
      exact absurd newline ‹_›
    · refine .unread_bind (b := true) (fun _ => newline) ?_
      have finish : Provides places i ⟨flags, .returning⟩ (Steady places i true)
          (pure (.done (if flags.executes then .ret else .stmtDone))) := done_provides nofun
      split
      iterate 4 exact .ite (fun _ => .bind (.setResult "") fun _ => finish) fun _ => finish
      exact push_bare_provides rfl rfl rfl nofun fun _ => rfl

/-- What any frame does in one step, if the slot is as it expects it. -/
theorem step_provides {f : Frame} (tidy : f.Tidy) (inner : Option Phase) :
    f.Provides f.places i (Untouched f.places i (f.wantsClear inner)) (f.step inner) := by
  obtain ⟨flags, construct⟩ := f
  have steady : ∀ {x : Act Move},
      Provides (places ⟨flags, construct⟩) i ⟨flags, construct⟩
        (Steady (places ⟨flags, construct⟩) i (wantsClear ⟨flags, construct⟩ inner)) x →
      Provides (places ⟨flags, construct⟩) i ⟨flags, construct⟩
        (Untouched (places ⟨flags, construct⟩) i (wantsClear ⟨flags, construct⟩ inner)) x :=
    fun h => h.weaken fun _ start => start.steady
  cases construct with
  | statement stage => exact steady (stepStatement_provides stage inner)
  | block scope => exact steady (stepBlock_provides scope inner)
  | branch stage => exact steady (stepBranch_provides stage inner)
  | loop l => exact stepLoop_provides (tidy.loop l rfl) inner
  | simple nl stage => exact steady (stepSimple_provides nl stage inner)
  | declarations nl => exact steady (stepDeclarations_provides nl inner)
  | declaration nl name => exact steady (stepDeclaration_provides nl name inner)
  | returning => exact steady (stepReturning_provides inner)
  | cond nl stage => exact steady (stepCond_provides tidy)
  | rel nl stage => exact steady (stepRel_provides tidy)
  | expr nl terms => exact steady (stepExpr_provides tidy)
  | call name stage => exact steady (stepCall_provides name stage)
  | arguments => exact steady (stepArguments_provides inner)

/-- When the frame acts on a session, what it does with the reader is in order, and the log tells of
all the tokens that it reads. -/
def DealsInOrder (f : Frame) (inner : Option Phase) (s : Session) : Prop :=
  ∃ ds, (f.act inner s).2.Account f.places s.input ds

structure Served (f : Frame) (inner : Option Phase) (i : Input) : Prop where
  tidy : f.Tidy
  clear : f.wantsClear inner = true → i.Clear

theorem act_settled {f : Frame} {inner : Option Phase} {s : Session}
    (served : f.Served inner s.input) :
    Settled f.places s.input (fun move => move.Suits f.places s.input f) (f.act inner s) :=
  step_provides served.tidy inner { session := s } (untouched_start f.places served.clear)

theorem Served.dealsInOrder {f : Frame} {inner : Option Phase} {s : Session}
    (served : f.Served inner s.input) : f.DealsInOrder inner s := by
  have settled := act_settled served
  unfold DealsInOrder
  rcases hact : f.act inner s with ⟨fault | move, scene⟩
  · rw [hact] at settled
    exact settled.2.1
  · rw [hact] at settled
    cases move with
    | done phase => exact settled.1
    | stay self => exact settled.2.1
    | push self child => exact settled.2.2.2.1
    | invoke target args saved => exact settled.1

end Frame

end Scriptlet
