import Scriptlet.Proofs.Renaming

/-!
Two runs in lockstep. Native functions may hold on to block ids, close blocks with them, pass them
on in reports and raise the faults they get; as long as they look neither into an id nor at the
state of the host, two runs that start from sessions which differ in the numbering of blocks take
the same steps, and end together in sessions and answers that differ in nothing else.
-/

namespace Scriptlet

variable {H : Type}

/-! ### Native functions that do not look into ids -/

/-- `Alike ρ p q`: the programs make the same requests whatever the state of the host, and from
answers that differ only in the numbering of blocks they go on alike. -/
inductive Program.Alike : Renaming → Program H Unit → Program H Unit → Prop where
  | done {ρ} : Alike ρ (.done ()) (.done ())
  | raise {ρ f g} : ρ.Faults f g → Alike ρ (.raise f) (.raise g)
  | request {ρ r next next'} : r.namesNoBlock = true →
      (∀ σ a b, ρ ≤ σ → r.Agrees σ a b → Alike σ (next a) (next' b)) →
      Alike ρ (.request r next) (.request r next')
  | closeBlock {ρ a b next next'} : ρ.Names a b →
      (∀ r r', ρ.Closings r r' → Alike ρ (next r) (next' r')) →
      Alike ρ (.request (.closeBlock a) next) (.request (.closeBlock b) next')
  | setError {ρ a b next next'} : ρ.Texts a b → Alike ρ (next ()) (next' ()) →
      Alike ρ (.request (.setError a) next) (.request (.setError b) next')
  | readHost {ρ next next'} : (∀ state state', Alike ρ (next state) (next' state')) →
      Alike ρ (.readHost next) (.readHost next')
  | writeHost {ρ state state' next next'} : Alike ρ next next' →
      Alike ρ (.writeHost state next) (.writeHost state' next')
  | eval {ρ enclosed script next next'} :
      (∀ σ r r', ρ ≤ σ → σ.Outcomes r r' → Alike σ (next r) (next' r')) →
      Alike ρ (.eval enclosed script next) (.eval enclosed script next')
  | parse {ρ start flags next next'} :
      (∀ σ r r', ρ ≤ σ → σ.Outcomes r r' → Alike σ (next r) (next' r')) →
      Alike ρ (.parse start flags next) (.parse start flags next')

/-- No native function looks into a block id or at the state of the host. -/
def Host.Discreet (host : Host H) : Prop :=
  ∀ key args ρ, (host.natives key args).Alike ρ (host.natives key args)

/-! ### Frames -/

inductive Frame.Renamed (ρ : Renaming) : Frame → Frame → Prop where
  | other {f : Frame} : (∀ scope, f.construct ≠ .block scope) → Renamed ρ f f
  | block (flags : Flags) {scope scope' : Option BlockId} : Option.Rel ρ.Names scope scope' →
      Renamed ρ ⟨flags, .block scope⟩ ⟨flags, .block scope'⟩

inductive Move.Renamed (ρ : Renaming) : Except Fault Move → Except Fault Move → Prop where
  | fault {f g : Fault} : ρ.Faults f g → Renamed ρ (.error f) (.error g)
  | push {f f' g g' : Frame} : f.Renamed ρ f' → g.Renamed ρ g' →
      Renamed ρ (.ok (.push f g)) (.ok (.push f' g'))
  | stay {f f' : Frame} : f.Renamed ρ f' → Renamed ρ (.ok (.stay f)) (.ok (.stay f'))
  | done (phase : Phase) : Renamed ρ (.ok (.done phase)) (.ok (.done phase))
  | invoke (target : Callable) (args : List String) (saved : Option Call) :
      Renamed ρ (.ok (.invoke target args saved)) (.ok (.invoke target args saved))

namespace Frame

open Act

variable {ρ σ : Renaming} {f g : Frame} {s t : Session}

theorem Renamed.mono (h : f.Renamed ρ g) (le : ρ ≤ σ) : f.Renamed σ g := by
  cases h with
  | other other => exact .other other
  | block flags scopes =>
    refine .block flags ?_
    cases scopes with
    | none => exact .none
    | some names => exact .some (names.mono le)

theorem renamed_of_bare (h : f.scope? = none) : f.Renamed ρ f := by
  by_cases isBlock : ∃ scope, f.construct = .block scope
  · obtain ⟨flags, construct⟩ := f
    obtain ⟨scope, rfl⟩ := isBlock
    obtain rfl : scope = none := h
    exact .block flags .none
  · exact .other fun scope h => isBlock ⟨scope, h⟩

theorem newStatement_renamed (ρ : Renaming) (flags : Flags) :
    (newStatement flags).Renamed ρ (newStatement flags) :=
  renamed_of_bare rfl

theorem move_renamed_of_bare {r : Except Fault Move} (bare : ∀ move, r = .ok move → move.Bare) :
    Move.Renamed ρ r r := by
  rcases r with fault | move
  · exact .fault (.refl ρ fault)
  · have bare := bare move rfl
    cases move with
    | push self inner => exact .push (renamed_of_bare bare.1) (renamed_of_bare bare.2)
    | stay self => exact .stay (renamed_of_bare bare)
    | done phase => exact .done phase
    | invoke target args saved => exact .invoke target args saved

def Corresponds (ρ : Renaming) (x y : Except Fault Move × Scene) : Prop :=
  ∃ σ, ρ ≤ σ ∧ Move.Renamed σ x.1 y.1 ∧ x.2.session.Renamed σ y.2.session

theorem stepBlock_corresponds {flags : Flags} {scope scope' : Option BlockId}
    (scopes : Option.Rel ρ.Names scope scope') (inner : Option Phase) (h : s.Renamed ρ t)
    (few : s.scopes.serial.toNat + 1 < 2 ^ 32) :
    Corresponds ρ ((stepBlock flags scope inner).on { session := s })
      ((stepBlock flags scope' inner).on { session := t }) := by
  have leave : ∀ phase, Corresponds ρ ((leaveBlock scope phase).on { session := s })
      ((leaveBlock scope' phase).on { session := t }) := by
    intro phase
    cases scopes with
    | none => exact ⟨ρ, le_rfl, .done phase, h⟩
    | some names =>
      rcases h.scopes.close names with ⟨s', t', left, right, kept⟩ | ⟨c, d, left, right, causes⟩
      · rw [on_leaveBlock_closed left, on_leaveBlock_closed right]
        exact ⟨ρ, le_rfl, .done phase, h.withScopes le_rfl kept⟩
      · rw [on_leaveBlock_refused left, on_leaveBlock_refused right]
        exact ⟨ρ, le_rfl, .fault ⟨rfl, causes⟩, h⟩
  cases inner with
  | none =>
    cases executes : flags.executes with
    | false =>
      simp only [stepBlock, executes, Bool.false_eq_true, if_false]
      exact ⟨ρ, le_rfl, .push (.block flags .none) (newStatement_renamed ρ flags), h⟩
    | true =>
      simp only [stepBlock, executes, if_true]
      obtain ⟨σ, le, names, kept⟩ := h.scopes.openBlock few
      exact ⟨σ, le, .push (.block flags (.some names)) (newStatement_renamed σ flags),
        h.withScopes le kept⟩
  | some phase =>
    cases phase with
    | stmtDone => exact ⟨ρ, le_rfl, .push (.block flags scopes) (newStatement_renamed ρ flags), h⟩
    | stmtBlockDone =>
      rw [stepBlock_stmtBlockDone, stepBlock_stmtBlockDone]
      exact leave .stmtBlockDone
    | ret =>
      rw [stepBlock_ret, stepBlock_ret]
      exact leave .ret
    | _ => exact ⟨ρ, le_rfl, .fault (.refl ρ _), h⟩

theorem act_corresponds (frames : f.Renamed ρ g) (inner : Option Phase) (h : s.Renamed ρ t)
    (few : s.scopes.serial.toNat + 1 < 2 ^ 32) :
    Corresponds ρ (f.act inner s) (g.act inner t) := by
  cases frames with
  | block flags scopes => exact stepBlock_corresponds scopes inner h few
  | other other =>
    obtain ⟨same, bare, kept⟩ := f.step_blind (Session.Renamed.unseen ρ) inner other
      { session := s } { session := t } h
    refine ⟨ρ, le_rfl, ?_, kept⟩
    simp only [Frame.act, same]
    exact move_renamed_of_bare bare

end Frame

namespace Machine

variable {z a : Ask} {ρ σ : Renaming} {host : Host H} {s t : Session}

/-! ### Configurations -/

inductive Waiting.Renamed (ρ : Renaming) : {a : Ask} → Waiting H z a → Waiting H z a → Prop where
  | idle : Renamed ρ .idle .idle
  | call (base : Nat) (saved : Option Call) {below below' : List Frame}
      {outer outer' : Waiting H z .phase} : List.Forall₂ (Frame.Renamed ρ) below below' →
      Renamed ρ outer outer' →
      Renamed ρ (.call base saved below outer) (.call base saved below' outer')
  | script (input : Input) (saved : Option Call) (blocks : Nat) {outer outer' : Waiting H z .text} :
      Renamed ρ outer outer' →
      Renamed ρ (.script input saved blocks outer) (.script input saved blocks outer')
  | enclosed (blocks : Nat) {outer outer' : Waiting H z .text} : Renamed ρ outer outer' →
      Renamed ρ (.enclosed blocks outer) (.enclosed blocks outer')
  | afterEval {next next' : Except Fault String → Program H Unit}
      {outer outer' : Waiting H z .unit} :
      (∀ σ r r', ρ ≤ σ → σ.Outcomes r r' → (next r).Alike σ (next' r')) →
      Renamed ρ outer outer' → Renamed ρ (.afterEval next outer) (.afterEval next' outer')
  | afterParse {next next' : Except Fault Phase → Program H Unit}
      {outer outer' : Waiting H z .unit} :
      (∀ σ r r', ρ ≤ σ → σ.Outcomes r r' → (next r).Alike σ (next' r')) →
      Renamed ρ outer outer' → Renamed ρ (.afterParse next outer) (.afterParse next' outer')

inductive Control.Renamed (ρ : Renaming) : Control H z → Control H z → Prop where
  | drive (base : Nat) (inner : Option Phase) {top top' : Frame} {below below' : List Frame}
      {outer outer' : Waiting H z .phase} : top.Renamed ρ top' →
      List.Forall₂ (Frame.Renamed ρ) below below' → outer.Renamed ρ outer' →
      Renamed ρ (.drive base top below inner outer) (.drive base top' below' inner outer')
  | program {p q : Program H Unit} {outer outer' : Waiting H z .unit} : p.Alike ρ q →
      outer.Renamed ρ outer' → Renamed ρ (.program p outer) (.program q outer')
  | deliver (a : Ask) {answer answer' : Except Fault a.Answer} {outer outer' : Waiting H z a} :
      ρ.Outcomes answer answer' → outer.Renamed ρ outer' →
      Renamed ρ (.deliver a answer outer) (.deliver a answer' outer')

structure Config.Renamed (ρ : Renaming) (c d : Config H z) : Prop where
  session : c.session.Renamed ρ d.session
  control : c.control.Renamed ρ d.control

structure Finished.Renamed (ρ : Renaming) (fin fin' : Finished H z) : Prop where
  answer : ρ.Outcomes fin.answer fin'.answer
  session : fin.session.Renamed ρ fin'.session

theorem frames_mono {below below' : List Frame} (h : List.Forall₂ (Frame.Renamed ρ) below below')
    (le : ρ ≤ σ) : List.Forall₂ (Frame.Renamed σ) below below' :=
  h.imp fun _ _ frame => frame.mono le

theorem Waiting.Renamed.mono {w w' : Waiting H z a} (h : w.Renamed ρ w') (le : ρ ≤ σ) :
    w.Renamed σ w' := by
  induction h with
  | idle => exact .idle
  | call base saved below _ ih => exact .call base saved (frames_mono below le) ih
  | script input saved blocks _ ih => exact .script input saved blocks ih
  | enclosed blocks _ ih => exact .enclosed blocks ih
  | afterEval alike _ ih =>
    exact .afterEval (fun τ r r' further => alike τ r r' (le_trans le further)) ih
  | afterParse alike _ ih =>
    exact .afterParse (fun τ r r' further => alike τ r r' (le_trans le further)) ih

/-! ### Steps -/

theorem withDepth (h : s.Renamed ρ t) (depth : Nat) :
    ({ s with depth } : Session).Renamed ρ { t with depth } :=
  h.update (fun s => { s with depth }) fun _ _ _ => rfl

theorem completed_renamed {below below' : List Frame} {outer outer' : Waiting H z .phase}
    {r r' : Except Fault Phase} (base : Nat) (frames : List.Forall₂ (Frame.Renamed ρ) below below')
    (waiting : outer.Renamed ρ outer') (outcomes : ρ.Outcomes r r') (h : s.Renamed ρ t)
    (state state' : H) :
    (completed base below outer r s state).Renamed ρ
      (completed base below' outer' r' t state') := by
  cases outcomes with
  | error faults =>
    refine ⟨withDepth h base, ?_⟩
    simp only [completed, h.line]
    exact .deliver .phase (.error (faults.orLine s.line)) waiting
  | ok phase =>
    cases frames with
    | nil => exact ⟨withDepth h base, .deliver .phase (.ok phase) waiting⟩
    | cons next rest => exact ⟨h, .drive base (some phase) next rest waiting⟩

theorem beginParse_renamed {outer outer' : Waiting H z .phase} (start : Phase) (flags : Flags)
    (h : s.Renamed ρ t) (waiting : outer.Renamed ρ outer') :
    (beginParse s start flags outer).1.Renamed ρ (beginParse t start flags outer').1 ∧
      (beginParse s start flags outer).2.Renamed ρ (beginParse t start flags outer').2 := by
  have depth : t.depth = s.depth := by rw [h.rest]
  have limit : t.limits.maxDepth = s.limits.maxDepth := by rw [h.rest]
  have refused : ∀ cause,
      ({ s with depth := s.depth } : Session).Renamed ρ { t with depth := s.depth } ∧
      (Control.deliver .phase (.error (Fault.orLine { cause } s.line)) outer).Renamed ρ
        (.deliver .phase (.error (Fault.orLine { cause } t.line)) outer') := by
    intro cause
    rw [h.line]
    exact ⟨withDepth h s.depth, .deliver .phase (.error (.refl ρ _)) waiting⟩
  simp only [beginParse, depth, limit]
  split
  · exact refused .recursionLimit
  · split
    · rename_i frame started
      refine ⟨withDepth h (s.depth + 1),
        .drive s.depth none (Frame.renamed_of_bare ?_) .nil waiting⟩
      cases start <;> simp only [Frame.start, Except.ok.injEq, reduceCtorEq] at started <;>
        exact started ▸ rfl
    · rename_i cause _
      exact refused cause

theorem startEval_renamed {outer outer' : Waiting H z .text} (enclosed : Bool) (script : String)
    (h : s.Renamed ρ t) (few : s.scopes.serial.toNat + 1 < 2 ^ 32)
    (waiting : outer.Renamed ρ outer') :
    ∃ σ, ρ ≤ σ ∧
      (startEval s enclosed script outer).1.Renamed σ (startEval t enclosed script outer').1 ∧
      (startEval s enclosed script outer).2.2.Renamed σ
        (startEval t enclosed script outer').2.2 := by
  have input := h.input
  have call : t.call = s.call := by rw [h.rest]
  have fresh : ∀ {τ : Renaming} {s t : Session}, s.Renamed τ t →
      ({ s with input := .ofScript script, call := none, result := "", report := none } :
        Session).Renamed τ
          { t with input := .ofScript script, call := none, result := "", report := none } := by
    intro τ s t h
    exact ⟨h.scopes, .none, congrArg (fun u : Session =>
      { u with input := .ofScript script, call := none, result := "", report := none }) h.rest⟩
  cases enclosed with
  | false =>
    simp only [startEval, beginEval, Bool.false_eq_true, if_false, input, call, h.scopes.depth]
    exact ⟨ρ, le_rfl, beginParse_renamed .stmt .execute (fresh h) (.script _ _ _ waiting)⟩
  | true =>
    obtain ⟨σ, le, _, scopes⟩ := h.scopes.openBlock few
    have opened := fresh (h.withScopes le scopes)
    simp only [startEval, beginEval, if_true, input, call, h.scopes.depth,
      ScopeStack.depth_openBlock]
    exact ⟨σ, le, beginParse_renamed .stmt .execute opened
      (.script _ _ _ (.enclosed _ (waiting.mono le)))⟩

inductive Abreast (ρ : Renaming) :
    Finished H z ⊕ Config H z → Finished H z ⊕ Config H z → Prop where
  | ended {fin fin' : Finished H z} : fin.Renamed ρ fin' → Abreast ρ (.inl fin) (.inl fin')
  | onward {σ : Renaming} {next next' : Config H z} : ρ ≤ σ → next.Renamed σ next' →
      Abreast ρ (.inr next) (.inr next')

theorem drive_abreast (discreet : host.Discreet) {base : Nat} {top top' : Frame}
    {below below' : List Frame} {inner : Option Phase} {outer outer' : Waiting H z .phase}
    (state state' : H) (h : s.Renamed ρ t) (few : s.scopes.serial.toNat + 1 < 2 ^ 32)
    (tops : top.Renamed ρ top') (frames : List.Forall₂ (Frame.Renamed ρ) below below')
    (waiting : outer.Renamed ρ outer') :
    Abreast ρ (step host ⟨s, state, .drive base top below inner outer⟩)
      (step host ⟨t, state', .drive base top' below' inner outer'⟩) := by
  obtain ⟨σ, le, moves, kept⟩ := Frame.act_corresponds tops inner h few
  rcases left : top.act inner s with ⟨r, scene⟩
  rcases right : top'.act inner t with ⟨r', scene'⟩
  rw [left, right] at moves kept
  have frames := frames_mono frames le
  have waiting := waiting.mono le
  cases moves with
  | fault faults =>
    rw [step_fault left, step_fault right]
    exact .onward le (completed_renamed base frames waiting (.error faults) kept _ _)
  | done phase =>
    rw [step_done left, step_done right]
    have gone : scene.session.leave.Renamed σ scene'.session.leave :=
      kept.update Session.leave fun _ _ _ => rfl
    exact .onward le (completed_renamed base frames waiting (.ok phase) gone _ _)
  | stay self =>
    rw [step_stay left, step_stay right]
    exact .onward le ⟨kept, .drive base none self frames waiting⟩
  | push self child =>
    have room : scene'.session.depth < scene'.session.limits.maxDepth ↔
        scene.session.depth < scene.session.limits.maxDepth := by rw [kept.rest]
    by_cases fits : scene.session.depth < scene.session.limits.maxDepth
    · rw [step_push left fits, step_push right (room.mpr fits)]
      have entered : scene.session.enter.Renamed σ scene'.session.enter :=
        kept.update Session.enter fun _ _ _ => rfl
      exact .onward le ⟨entered, .drive base none child (.cons self frames) waiting⟩
    · have full := Nat.not_lt.mp fits
      have full' := Nat.not_lt.mp (mt room.mp fits)
      rw [step_limit left full, step_limit right full']
      exact .onward le (completed_renamed base frames waiting (.error (.refl σ _)) kept _ _)
  | invoke target args saved =>
    rw [step_invoke left, step_invoke right]
    exact .onward le ⟨kept, .program (discreet target.key args σ)
      (.call base saved frames waiting)⟩

theorem program_abreast {p q : Program H Unit} {outer outer' : Waiting H z .unit}
    (state state' : H) (h : s.Renamed ρ t) (few : s.scopes.serial.toNat + 1 < 2 ^ 32)
    (alike : p.Alike ρ q) (waiting : outer.Renamed ρ outer') :
    Abreast ρ (step host ⟨s, state, .program p outer⟩)
      (step host ⟨t, state', .program q outer'⟩) := by
  rw [step_program, step_program]
  cases alike with
  | done => exact .onward le_rfl ⟨h, .deliver .unit (.ok ()) waiting⟩
  | raise faults => exact .onward le_rfl ⟨h, .deliver .unit (.error faults) waiting⟩
  | request noBlock next =>
    obtain ⟨σ, le, agrees, kept⟩ := h.answer few noBlock
    exact .onward le ⟨kept, .program (next σ _ _ le agrees) (waiting.mono le)⟩
  | closeBlock names next =>
    obtain ⟨closings, kept⟩ := h.answer_closeBlock names
    exact .onward le_rfl ⟨kept, .program (next _ _ closings) waiting⟩
  | setError texts next => exact .onward le_rfl ⟨h.setError texts, .program next waiting⟩
  | readHost next => exact .onward le_rfl ⟨h, .program (next state state') waiting⟩
  | writeHost next => exact .onward le_rfl ⟨h, .program next waiting⟩
  | eval next =>
    obtain ⟨σ, le, kept, control⟩ := startEval_renamed _ _ h few (.afterEval next waiting)
    exact .onward le ⟨kept, control⟩
  | parse next =>
    obtain ⟨kept, control⟩ := beginParse_renamed _ _ h (.afterParse next waiting)
    exact .onward le_rfl ⟨kept, control⟩

theorem script_renamed {r r' : Except Fault Phase} {outer outer' : Waiting H z .text}
    (input : Input) (saved : Option Call) (blocks : Nat) (h : s.Renamed ρ t)
    (outcomes : ρ.Outcomes r r') (waiting : outer.Renamed ρ outer') :
    (scriptStep s input saved blocks r outer).1.Renamed ρ
        (scriptStep t input saved blocks r' outer').1 ∧
      (scriptStep s input saved blocks r outer).2.2.Renamed ρ
        (scriptStep t input saved blocks r' outer').2.2 := by
  have back : ∀ {s t : Session}, s.Renamed ρ t →
      ({ s with input, call := saved } : Session).Renamed ρ { t with input, call := saved } :=
    fun h => h.update (fun s => { s with input, call := saved }) fun _ _ _ => rfl
  have failed : ∀ {f g : Fault}, ρ.Faults f g →
      (failEval s input saved blocks f outer).1.Renamed ρ
          (failEval t input saved blocks g outer').1 ∧
        (failEval s input saved blocks f outer).2.2.Renamed ρ
          (failEval t input saved blocks g outer').2.2 := by
    intro f g faults
    have cut := h.withScopes le_rfl (h.scopes.truncate blocks)
    exact ⟨back (cut.recordFault faults), .deliver .text (.error faults) waiting⟩
  cases outcomes with
  | error faults => exact failed faults
  | ok phase =>
    have value : (Control.deliver .text (.ok s.result) outer).Renamed ρ
        (.deliver .text (.ok t.result) outer') := by
      rw [h.resembles.result]
      exact .deliver .text (.ok s.result) waiting
    have line := h.line
    cases phase with
    | stmtDone => exact beginParse_renamed .stmt .execute h (.script input saved blocks waiting)
    | eof => exact ⟨back h, value⟩
    | ret => exact ⟨back h, value⟩
    | _ =>
      simp only [scriptStep, line]
      exact failed (.refl ρ _)

theorem deliver_abreast {answer answer' : Except Fault a.Answer} {outer outer' : Waiting H z a}
    (state state' : H) (h : s.Renamed ρ t) (outcomes : ρ.Outcomes answer answer')
    (waiting : outer.Renamed ρ outer') :
    Abreast ρ (step host ⟨s, state, .deliver a answer outer⟩)
      (step host ⟨t, state', .deliver a answer' outer'⟩) := by
  cases waiting with
  | idle => exact .ended ⟨outcomes, h⟩
  | call base saved frames waiting =>
    have back : ({ s with call := saved } : Session).Renamed ρ { t with call := saved } :=
      h.update (fun s => { s with call := saved }) fun _ _ _ => rfl
    cases outcomes with
    | ok u =>
      rw [step_return_ok, step_return_ok]
      have gone : ({ s with call := saved } : Session).leave.Renamed ρ
          ({ t with call := saved } : Session).leave :=
        back.update Session.leave fun _ _ _ => rfl
      exact .onward le_rfl (completed_renamed base frames waiting (.ok .exprDone) gone _ _)
    | error faults =>
      rw [step_return_fault, step_return_fault]
      exact .onward le_rfl (completed_renamed base frames waiting (.error faults) back _ _)
  | script input saved blocks waiting =>
    obtain ⟨kept, control⟩ := script_renamed input saved blocks h outcomes waiting
    exact .onward le_rfl ⟨kept, control⟩
  | enclosed blocks waiting =>
    have cut := h.withScopes le_rfl (h.scopes.truncate blocks)
    exact .onward le_rfl ⟨cut, .deliver .text outcomes waiting⟩
  | afterEval next waiting =>
    exact .onward le_rfl ⟨h, .program (next ρ _ _ le_rfl outcomes) waiting⟩
  | afterParse next waiting =>
    exact .onward le_rfl ⟨h, .program (next ρ _ _ le_rfl outcomes) waiting⟩

theorem step_abreast (discreet : host.Discreet) {c d : Config H z} (h : c.Renamed ρ d)
    (few : c.session.scopes.serial.toNat + 1 < 2 ^ 32) :
    Abreast ρ (step host c) (step host d) := by
  obtain ⟨s, state, control⟩ := c
  obtain ⟨t, state', control'⟩ := d
  obtain ⟨session, control⟩ := h
  cases control with
  | drive base inner tops frames waiting =>
    exact drive_abreast discreet state state' session few tops frames waiting
  | program alike waiting => exact program_abreast state state' session few alike waiting
  | deliver a outcomes waiting => exact deliver_abreast state state' session outcomes waiting

/-! ### Runs -/

/-- Both runs end with the same step. -/
theorem run_renamed (discreet : host.Discreet) {n : Nat} {c d : Config H z} {fin : Finished H z}
    (h : c.Renamed ρ d) (ends : run host n c = some fin)
    (few : c.session.scopes.serial.toNat + opens host n c + 1 < 2 ^ 32) :
    ∃ σ fin', ρ ≤ σ ∧ run host n d = some fin' ∧ fin.Renamed σ fin' := by
  induction n generalizing c d ρ with
  | zero => simp [run] at ends
  | succ n ih =>
    have abreast := step_abreast discreet h (by omega)
    cases left : step host c with
    | inl last =>
      rw [left] at abreast
      obtain rfl : last = fin := by simpa [run, left] using ends
      generalize right : step host d = last at abreast
      cases abreast with
      | ended renamed => exact ⟨ρ, _, le_rfl, by simp [run, right], renamed⟩
    | inr next =>
      rw [left] at abreast
      have count := (step_turns left).toNat_serial
      rw [opens_step left] at few
      generalize right : step host d = last at abreast
      cases abreast with
      | onward le renamed =>
        obtain ⟨σ, fin', further, ended, last⟩ := ih renamed (run_step left ends) (by
          rw [count (by omega)]
          omega)
        exact ⟨σ, fin', le_trans le further, by simpa [run, right] using ended, last⟩

end Machine

/-- Evaluations of one script on sessions that differ in the numbering of blocks. -/
theorem Session.Renamed.eval {ρ : Renaming} {host : Host H} {s t : Session}
    (discreet : host.Discreet) (h : s.Renamed ρ t) {fuel : Nat} {state : H} (state' : H)
    {enclosed : Bool} {script : String} {fin : Machine.Finished H .text}
    (ends : s.eval host fuel state enclosed script = some fin)
    (few : s.scopes.serial.toNat + s.evalOpens host fuel state enclosed script + 1 < 2 ^ 32) :
    ∃ σ fin', ρ ≤ σ ∧ t.eval host fuel state' enclosed script = some fin' ∧
      fin.Renamed σ fin' := by
  rw [Session.eval_eq] at ends
  simp only [Session.evalOpens] at few
  have count := (Machine.startEval_turns (H := H) s enclosed script .idle).toNat_serial (by omega)
  obtain ⟨σ, le, session, control⟩ :=
    Machine.startEval_renamed (H := H) enclosed script h (by omega) .idle
  have begun : (Machine.resume host state (Machine.startEval s enclosed script .idle)).Renamed σ
      (Machine.resume host state' (Machine.startEval t enclosed script .idle)) := ⟨session, control⟩
  obtain ⟨τ, fin', further, ended, last⟩ := Machine.run_renamed discreet begun ends (by
    simp only [Machine.resume] at few ⊢
    omega)
  exact ⟨τ, fin', le_trans le further, ended, last⟩

end Scriptlet
