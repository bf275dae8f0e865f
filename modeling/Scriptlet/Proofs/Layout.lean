import Scriptlet.Proofs.Indifference
import Scriptlet.Proofs.Tokens

/-!
Layout. Two texts that have the same tokens are evaluated in lockstep, whatever blanks and comments
stand between the tokens: the machines take the same steps, frame by frame, and end together in the
same answer and the same tables. All that may differ are the positions that reports tell.
-/

namespace Scriptlet

namespace Input

/-- `i.Lexes ts`: read as statements are, from here to its end, the script has the tokens `ts`. -/
inductive Lexes : Input → List Token → Prop where
  | last {i j t} : i.next .stmt = (t, j) → t.kind = .eof → Lexes i []
  | more {i j t ts} : i.next .stmt = (t, j) → t.kind ≠ .eof → Lexes j ts → Lexes i (t :: ts)

theorem Lexes.eq_tokens {i : Input} {ts : List Token} (h : i.Lexes ts) (fresh : i.putback = none) :
    ts = i.tokens := by
  induction h with
  | @last i j t read ends =>
    cases tokens : i.tokens with
    | nil => rfl
    | cons t' ts =>
      obtain ⟨_, read', -, -, more⟩ := next_of_cons fresh .stmt rfl tokens
      obtain ⟨rfl, -⟩ := Prod.mk.inj (read.symm.trans read')
      exact absurd ends more
  | @more i j t ts read more _ ih =>
    cases tokens : i.tokens with
    | nil =>
      obtain ⟨_, read', -⟩ := next_of_nil fresh .stmt tokens
      obtain ⟨rfl, -⟩ := Prod.mk.inj (read.symm.trans read')
      exact absurd rfl more
    | cons t' ts' =>
      obtain ⟨_, read', empty, rest, -⟩ := next_of_cons fresh .stmt rfl tokens
      obtain ⟨rfl, rfl⟩ := Prod.mk.inj (read.symm.trans read')
      rw [ih empty, rest]

theorem lexes_tokens {i : Input} (fresh : i.putback = none) : i.Lexes i.tokens := by
  generalize tokens : i.tokens = ts
  induction ts generalizing i with
  | nil =>
    obtain ⟨j, read, -⟩ := next_of_nil fresh .stmt tokens
    exact .last read rfl
  | cons t ts ih =>
    obtain ⟨j, read, empty, rest, more⟩ := next_of_cons fresh .stmt rfl tokens
    exact .more read more (ih empty rest)

structure Twin (i j : Input) : Prop where
  putback : j.putback = i.putback
  tokens : j.tokens = i.tokens

namespace Twin

variable {i j : Input}

theorem refl (i : Input) : i.Twin i := ⟨rfl, rfl⟩

theorem unread (h : i.Twin j) (t : Token) : (i.unread t).Twin (j.unread t) := ⟨rfl, h.tokens⟩

theorem next (h : i.Twin j) (phase : Phase) :
    (j.next phase).1 = (i.next phase).1 ∧ (i.next phase).2.Twin (j.next phase).2 := by
  cases back : i.putback with
  | some t =>
    obtain ⟨_, _, _⟩ := i
    obtain ⟨_, _, _⟩ := j
    obtain rfl := back
    obtain rfl := h.putback
    exact ⟨rfl, rfl, h.tokens⟩
  | none =>
    have left := take_tokens back phase
    have right := take_tokens (h.putback.trans back) phase
    rw [h.tokens, left] at right
    obtain ⟨same, tokens⟩ := Prod.mk.inj right
    refine ⟨same.symm, ?_, tokens.symm⟩
    rw [putback_next, putback_next]

end Twin

end Input

/-- Sessions that have the same tokens ahead and differ in nothing that frames see. Their results
are the same if the flag is on. -/
structure Session.Twin (known : Bool) (s t : Session) : Prop where
  input : s.input.Twin t.input
  scopes : t.scopes = s.scopes
  functions : t.functions = s.functions
  call : t.call = s.call
  limits : t.limits = s.limits
  depth : t.depth = s.depth
  result : known = true → t.result = s.result

namespace Session.Twin

variable {known : Bool} {s t : Session}

theorem withScopes (h : s.Twin known t) {σ τ : ScopeStack} (same : τ = σ) :
    ({ s with scopes := σ } : Session).Twin known { t with scopes := τ } :=
  { h with scopes := same }

theorem withDepth (h : s.Twin known t) (depth : Nat) :
    ({ s with depth } : Session).Twin known { t with depth } :=
  { h with depth := rfl }

theorem enter (h : s.Twin known t) : s.enter.Twin known t.enter :=
  { h with depth := congrArg (· + 1) h.depth }

theorem leave (h : s.Twin known t) : s.leave.Twin known t.leave :=
  { h with depth := congrArg (· - 1) h.depth }

end Session.Twin

def Fault.SameCause (f g : Fault) : Prop := g.cause = f.cause

theorem Fault.SameCause.orLine {f g : Fault} (h : f.SameCause g) (m n : Nat) :
    (f.orLine m).SameCause (g.orLine n) := by
  simpa [SameCause] using h

def twins : Likeness where
  inputs := Input.Twin
  sessions := Session.Twin
  faults := Fault.SameCause
  next := fun phase h => h.next phase
  unread := fun t h => h.unread t
  cause := fun _ => rfl
  malformed := fun _ _ => rfl
  input := fun h => h.input
  call := fun h => h.call
  functions := fun h => h.functions
  values := fun h name => by rw [Session.getVar?, Session.getVar?, h.scopes]
  result := fun h => h.result rfl
  withInput := fun input h => { h with input }
  withToken := fun _ h => { h with }
  withResult := fun _ h => { h with result := fun _ => rfl }
  withCall := fun _ h => { h with call := rfl }
  assign := fun name value h => h.withScopes (by rw [h.scopes])
  setLocal := fun name value h => h.withScopes (by rw [h.scopes])

namespace Frame

open Act

variable {flags : Flags} {known : Bool}

def Twins (gives known : Bool) (m n : Move) : Prop :=
  m.Like Input.Twin n ∧ (known = false → m.Clear gives)

theorem openBlock_twins : Act.Same twins known openBlock openBlock := by
  intro scene scene' twin
  have same : scene'.session.scopes.openBlock = scene.session.scopes.openBlock := by
    rw [twin.scopes]
  exact ⟨known, id, twin.withScopes (congrArg Prod.snd same), .ok (congrArg Prod.fst same)⟩

theorem closeBlock_twins (id : BlockId) :
    Act.Same twins known (closeBlock id) (closeBlock id) := by
  intro scene scene' twin
  simp only [closeBlock, on_bind, on_session, on_ofExcept, twin.scopes]
  cases scene.session.scopes.close id with
  | error cause => exact ⟨known, fun h => h, twin, .error rfl⟩
  | ok scopes => exact ⟨known, fun h => h, twin.withScopes rfl, .ok trivial⟩

theorem stepBlock_twins (scope : Option BlockId) (inner : Option Phase) :
    Alike twins known (Twins false) (stepBlock flags scope inner)
      (stepBlock flags scope inner) := by
  have again : ∀ known scope, Alike twins known (Twins false)
      (pure (.push ⟨flags, .block scope⟩ (newStatement flags)))
      (pure (.push ⟨flags, .block scope⟩ (newStatement flags))) := by
    refine fun _ scope => .pure ⟨.push (.same rfl) (.same rfl), fun _ => ?_⟩
    exact ⟨nofun, trivial, ⟨trivial, rfl⟩, nofun⟩
  have done : ∀ known phase, Alike twins known (Twins false) (pure (.done phase))
      (pure (.done phase)) := fun _ phase => .pure ⟨.done phase, fun _ => rfl⟩
  have leave : ∀ phase, Alike twins known (Twins false) (leaveBlock scope phase)
      (leaveBlock scope phase) := by
    intro phase
    cases scope with
    | none => exact done known phase
    | some id => exact .same_bind (closeBlock_twins id) fun known _ _ => done known phase
  cases inner with
  | none =>
    refine .ite (fun _ => .same_bind openBlock_twins fun known id _ => ?_) fun _ => again known none
    exact .emit_bind (again known (some id))
  | some phase =>
    cases phase with
    | stmtDone => exact again known scope
    | stmtBlockDone => exact leave .stmtBlockDone
    | ret => exact leave .ret
    | _ => exact .fail _

/-- One step of any frame. -/
theorem act_twins {f g : Frame} (like : f.Like Input.Twin g) (inner : Option Phase)
    (clear : known = false → f.Clear inner) {s t : Session} (twin : s.Twin known t) :
    ∃ known', (known = true → known' = true) ∧
      (f.act inner s).2.session.Twin known' (g.act inner t).2.session ∧
      Agree Fault.SameCause (Twins f.gives known') (f.act inner s).1 (g.act inner t).1 := by
  by_cases isBlock : ∃ scope, f.construct = .block scope
  · obtain ⟨flags, construct⟩ := f
    obtain ⟨scope, rfl⟩ := isBlock
    cases like with
    | same _ => exact stepBlock_twins scope inner { session := s } { session := t } twin
  · obtain ⟨known', kept, twin', answers⟩ := step_alike (L := twins) like inner clear
      (fun scope h => isBlock ⟨scope, h⟩) { session := s } { session := t } twin
    refine ⟨known', kept, twin', ?_⟩
    generalize (f.act inner s).1 = r at answers ⊢
    generalize (g.act inner t).1 = r' at answers ⊢
    cases answers with
    | error cause => exact .error cause
    | ok alike => exact .ok ⟨alike.1, alike.2.2⟩

end Frame

namespace Machine

variable {H : Type} {host : Host H} {known : Bool}

/-- Frames that wait on both sides. `sure` tells that the result will be the same when they are
come back to; a frame that will read it has to be sure of it. -/
inductive StackTwin : Bool → List Frame → List Frame → Prop where
  | nil {sure} : StackTwin sure [] []
  | cons {sure f g fs gs} : f.Like Input.Twin g →
      (sure = false → f.Sound ∧ ∀ phase, f.reads (some phase) = false) →
      StackTwin (sure || f.gives) fs gs → StackTwin sure (f :: fs) (g :: gs)

theorem StackTwin.surer {sure sure' : Bool} {fs gs : List Frame} (h : StackTwin sure fs gs)
    (le : sure = true → sure' = true) : StackTwin sure' fs gs := by
  induction h generalizing sure' with
  | nil => exact .nil
  | @cons sure f g fs gs like clear _ ih =>
    refine .cons like (fun unsure => clear ?_) (ih ?_)
    · cases sure with
      | false => rfl
      | true => rw [le rfl] at unsure; cases unsure
    · simp only [Bool.or_eq_true]
      exact Or.imp_left le

/-- Answers on both sides: both fail for the same cause, or both succeed, with the same answer if
the results are known to be the same. -/
abbrev Answers (known : Bool) {α : Type} : Except Fault α → Except Fault α → Prop :=
  Agree Fault.SameCause fun a b => known = true → b = a

inductive Config.Twin (known : Bool) : Config H .text → Config H .text → Prop where
  | drive {s t : Session} {state state' : H} {base : Nat} {f g : Frame} {fs gs : List Frame}
      {inner : Option Phase} {outer : Waiting H .text .phase} :
      s.Twin known t → f.Like Input.Twin g → (known = false → f.Clear inner) →
      StackTwin (known || f.gives) fs gs → outer.inNative = false →
      Twin known ⟨s, state, .drive base f fs inner outer⟩ ⟨t, state', .drive base g gs inner outer⟩
  | phase {s t : Session} {state state' : H} {r r' : Except Fault Phase}
      {outer : Waiting H .text .phase} :
      s.Twin known t → Answers true r r' → outer.inNative = false →
      Twin known ⟨s, state, .deliver .phase r outer⟩ ⟨t, state', .deliver .phase r' outer⟩
  | text {s t : Session} {state state' : H} {r r' : Except Fault String}
      {outer : Waiting H .text .text} :
      s.Twin known t → Answers known r r' → outer.inNative = false →
      Twin known ⟨s, state, .deliver .text r outer⟩ ⟨t, state', .deliver .text r' outer⟩

structure Finished.Twin (known : Bool) (fin fin' : Finished H .text) : Prop where
  answer : Answers known fin.answer fin'.answer
  session : fin.session.Twin known fin'.session

theorem Finished.Twin.weaken {known' : Bool} {fin fin' : Finished H .text}
    (h : fin.Twin known' fin') (le : known = true → known' = true) : fin.Twin known fin' := by
  refine ⟨?_, { h.session with result := fun k => h.session.result (le k) }⟩
  have answer := h.answer
  generalize fin.answer = r at answer ⊢
  generalize fin'.answer = r' at answer ⊢
  cases answer with
  | error cause => exact .error cause
  | ok same => exact .ok fun k => same (le k)

theorem Finished.Twin.cause_eq {fin fin' : Finished H .text} (h : fin.Twin true fin') :
    fin'.answer.mapError (·.cause) = fin.answer.mapError (·.cause) := by
  have answer := h.answer
  generalize fin.answer = r at answer ⊢
  generalize fin'.answer = r' at answer ⊢
  cases answer with
  | error cause => exact congrArg Except.error cause
  | ok same => rw [same rfl]

inductive Paired (known : Bool) : Finished H .text ⊕ Config H .text →
    Finished H .text ⊕ Config H .text → Prop where
  | ended {fin fin' : Finished H .text} : fin.Twin known fin' → Paired known (.inl fin) (.inl fin')
  | onward {known' : Bool} {c d : Config H .text} : (known = true → known' = true) →
      c.Twin known' d → Paired known (.inr c) (.inr d)

/-! ### Steps -/

theorem completed_twins {s t : Session} {base : Nat} {fs gs : List Frame}
    {outer : Waiting H .text .phase} (phase : Phase) (twin : s.Twin known t)
    (stack : StackTwin known fs gs) (direct : outer.inNative = false) (state state' : H) :
    (completed base fs outer (.ok phase) s state).Twin known
      (completed base gs outer (.ok phase) t state') := by
  cases stack with
  | nil => exact .phase (twin.withDepth base) (.ok fun _ => rfl) direct
  | cons like clear rest =>
    exact .drive twin like (fun unknown => (clear unknown).imp_right fun h => h phase) rest direct

theorem drive_twins {s t : Session} {state state' : H} {base : Nat} {f g : Frame}
    {fs gs : List Frame} {inner : Option Phase} {outer : Waiting H .text .phase}
    (twin : s.Twin known t) (like : f.Like Input.Twin g) (clear : known = false → f.Clear inner)
    (stack : StackTwin (known || f.gives) fs gs) (direct : outer.inNative = false)
    (silent : Config.call? host ⟨s, state, .drive base f fs inner outer⟩ = none) :
    Config.call? host ⟨t, state', .drive base g gs inner outer⟩ = none ∧
      Paired known (step host ⟨s, state, .drive base f fs inner outer⟩)
        (step host ⟨t, state', .drive base g gs inner outer⟩) := by
  obtain ⟨known', kept, twin', answers⟩ := Frame.act_twins like inner clear twin
  rcases left : f.act inner s with ⟨r, scene⟩
  rcases right : g.act inner t with ⟨r', scene'⟩
  rw [left, right] at twin' answers
  have surer : ∀ gives, (known' = false → f.gives = true → gives = true) →
      (known || f.gives) = true → (known' || gives) = true := by
    intro gives none sure
    cases known' with
    | true => rfl
    | false =>
      rcases Bool.or_eq_true_iff.mp sure with h | h
      · cases kept h
      · exact none rfl h
  have room : scene'.session.depth < scene'.session.limits.maxDepth ↔
      scene.session.depth < scene.session.limits.maxDepth := by rw [twin'.depth, twin'.limits]
  cases answers with
  | error cause =>
    rw [step_fault left, step_fault right]
    refine ⟨call?_other right nofun, .onward kept (.phase (twin'.withDepth base) ?_ direct)⟩
    exact .error (cause.orLine _ _)
  | ok moves =>
    obtain ⟨moves, clear'⟩ := moves
    cases moves with
    | done phase =>
      rw [step_done left, step_done right]
      refine ⟨call?_other right nofun, .onward kept ?_⟩
      have stack := stack.surer (surer false fun h gives => ((clear' h).symm.trans gives))
      rw [Bool.or_false] at stack
      exact completed_twins phase twin'.leave stack direct _ _
    | stay self =>
      rw [step_stay left, step_stay right]
      refine ⟨call?_other right nofun, .onward kept ?_⟩
      have stack := stack.surer (surer _ fun h => (clear' h).1)
      exact .drive twin' self (fun h => (clear' h).2) stack direct
    | push self child =>
      by_cases fits : scene.session.depth < scene.session.limits.maxDepth
      · rw [step_push left fits, step_push right (room.mpr fits)]
        refine ⟨call?_other right nofun, .onward kept ?_⟩
        refine .drive twin'.enter child (fun h => (clear' h).2.2.1) (.cons self ?_ ?_) direct
        · intro unsure
          obtain ⟨h, none⟩ := Bool.or_eq_false_iff.mp unsure
          obtain ⟨-, sound, -, reads⟩ := clear' h
          exact ⟨sound, fun phase => Bool.eq_false_iff.mpr fun h => by simp [reads phase h] at none⟩
        · rw [Bool.or_assoc]
          refine stack.surer (surer _ fun h gives => ?_)
          rw [(clear' h).1 gives, Bool.or_true]
      · rw [step_limit left (Nat.not_lt.mp fits),
          step_limit right (Nat.not_lt.mp (mt room.mp fits))]
        refine ⟨call?_other right nofun, .onward kept (.phase (twin'.withDepth base) ?_ direct)⟩
        exact .error (Fault.SameCause.orLine rfl _ _)
    | invoke target args saved =>
      rw [call?_invoke direct left] at silent
      cases silent

theorem beginParse_twins {s t : Session} {outer : Waiting H .text .phase} (twin : s.Twin known t)
    (direct : outer.inNative = false) (state state' : H) :
    Config.Twin known
      ⟨(beginParse s .stmt .execute outer).1, state, (beginParse s .stmt .execute outer).2⟩
      ⟨(beginParse t .stmt .execute outer).1, state', (beginParse t .stmt .execute outer).2⟩ := by
  have room : t.depth < t.limits.maxDepth ↔ s.depth < s.limits.maxDepth := by
    rw [twin.depth, twin.limits]
  by_cases fits : s.depth < s.limits.maxDepth
  · have entered := twin.enter
    rw [Session.beginParse_start fits rfl, Session.beginParse_start (room.mpr fits) rfl]
    simp only [twin.depth] at entered ⊢
    exact .drive entered (.same rfl) (fun _ => ⟨trivial, rfl⟩) .nil direct
  · simp only [beginParse, if_pos (Nat.not_lt.mp fits), if_pos (Nat.not_lt.mp (mt room.mp fits))]
    exact .phase twin (.error (Fault.SameCause.orLine rfl _ _)) direct

theorem script_twins {s t : Session} {state state' : H} {r r' : Except Fault Phase} {input : Input}
    {saved : Option Call} {blocks : Nat} {outer : Waiting H .text .text} (twin : s.Twin known t)
    (answers : Answers true r r') (direct : outer.inNative = false) :
    Paired known
      (step host ⟨s, state, .deliver .phase r (.script input saved blocks outer)⟩)
      (step host ⟨t, state', .deliver .phase r' (.script input saved blocks outer)⟩) := by
  have ended : ∀ f g : Fault, f.SameCause g → Paired known
      (.inr (resume host state (failEval s input saved blocks f outer)))
      (.inr (resume host state' (failEval t input saved blocks g outer))) := by
    intro f g cause
    refine .onward id (.text ?_ (.error cause) direct)
    exact { twin with
      input := .refl input
      scopes := congrArg (ScopeStack.truncate · blocks) twin.scopes
      call := rfl }
  cases answers with
  | error cause => exact ended _ _ cause
  | @ok phase phase' same =>
    obtain rfl := same rfl
    have left : Paired known
        (.inr (resume host state ((endEval s input saved (.ok s.result) outer).1, [],
          (endEval s input saved (.ok s.result) outer).2)))
        (.inr (resume host state' ((endEval t input saved (.ok t.result) outer).1, [],
          (endEval t input saved (.ok t.result) outer).2))) :=
      .onward id (.text { twin with input := .refl input, call := rfl } (.ok twin.result) direct)
    cases phase' with
    | stmtDone => exact .onward id (beginParse_twins twin direct _ _)
    | eof => exact left
    | ret => exact left
    | _ => exact ended _ _ rfl

/-- One step of both machines. -/
theorem step_twins {c d : Config H .text} (twin : c.Twin known d) (silent : c.call? host = none) :
    d.call? host = none ∧ Paired known (step host c) (step host d) := by
  cases twin with
  | drive twin like clear stack direct => exact drive_twins twin like clear stack direct silent
  | phase twin answers direct =>
    refine ⟨rfl, ?_⟩
    rename_i outer
    cases outer with
    | script input saved blocks outer => exact script_twins twin answers direct
    | afterParse next outer => cases direct
  | text twin answers direct =>
    refine ⟨rfl, ?_⟩
    rename_i outer
    cases outer with
    | idle => exact .ended ⟨answers, twin⟩
    | enclosed blocks outer =>
      have same := congrArg (ScopeStack.truncate · blocks) twin.scopes
      exact .onward id (.text (twin.withScopes same) answers direct)
    | afterEval next outer => cases direct

/-! ### Runs -/

/-- Both runs end with the same step, unless a call is made. -/
theorem run_twins {n : Nat} {c d : Config H .text} (twin : c.Twin known d)
    (silent : calls host n c = []) :
    calls host n d = [] ∧ Option.Rel (Finished.Twin known) (run host n c) (run host n d) := by
  induction n generalizing c d known with
  | zero => exact ⟨rfl, .none⟩
  | succ n ih =>
    obtain ⟨none', paired⟩ := step_twins twin (call?_of_silent silent)
    cases left : step host c with
    | inl fin =>
      rw [left] at paired
      generalize right : step host d = last at paired
      cases paired with
      | ended ends => exact ⟨by simp [calls, right], by simpa [run, left, right] using ends⟩
    | inr next =>
      rw [left] at paired
      rw [calls_step left (call?_of_silent silent)] at silent
      generalize right : step host d = last at paired
      cases paired with
      | onward kept twin =>
        obtain ⟨silent', ends⟩ := ih twin silent
        refine ⟨by rw [calls_step right none', silent'], ?_⟩
        simp only [run, left, right]
        generalize run host n next = o at ends ⊢
        generalize run host n _ = o' at ends ⊢
        cases ends with
        | none => exact .none
        | some ends => exact .some (ends.weaken kept)

end Machine

namespace Session

open Machine

variable {H : Type}

/-- Evaluations of texts with the same tokens start as twins. -/
theorem startEval_twins {host : Host H} {s : Session} {script script' : String} (state : H)
    (enclosed : Bool)
    (same : (Input.ofScript script').tokens = (Input.ofScript script).tokens) :
    Config.Twin true (resume host state (startEval s enclosed script .idle))
      (resume host state (startEval s enclosed script' .idle)) := by
  have twin : ∀ t : Session,
      ({ t with input := .ofScript script, call := none, result := "", report := none } :
        Session).Twin true
          { t with input := .ofScript script', call := none, result := "", report := none } :=
    fun t => ⟨⟨rfl, same⟩, rfl, rfl, rfl, rfl, rfl, fun _ => rfl⟩
  cases enclosed with
  | false => exact beginParse_twins (twin s) rfl _ _
  | true => exact beginParse_twins (twin { s with scopes := s.scopes.openBlock.2 }) rfl _ _

/-- Layout never changes meaning. Two scripts with the same tokens, newlines and malformed ones
among them, that call no native function are evaluated in the same number of steps, and either both
succeed with the same value or both fail for the same cause. The result, all tables and the open
blocks are the same afterwards. -/
theorem eval_layout (host : Host H) (fuel : Nat) (s : Session) (state : H) (enclosed : Bool)
    (script script' : String) (ts : List Token) (lexed : (Input.ofScript script).Lexes ts)
    (lexed' : (Input.ofScript script').Lexes ts)
    (silent : s.evalCalls host fuel state enclosed script = []) :
    s.evalCalls host fuel state enclosed script' = [] ∧
    Option.Rel (fun fin fin' =>
        fin'.answer.mapError (·.cause) = fin.answer.mapError (·.cause) ∧
        fin'.session.result = fin.session.result ∧ fin'.session.scopes = fin.session.scopes ∧
        fin'.session.call = fin.session.call ∧ fin'.session.depth = fin.session.depth)
      (s.eval host fuel state enclosed script) (s.eval host fuel state enclosed script') := by
  have same := (lexed'.eq_tokens rfl).symm.trans (lexed.eq_tokens rfl)
  obtain ⟨silent', ends⟩ := run_twins (startEval_twins state enclosed same) silent
  have ends : Option.Rel (Finished.Twin true) (s.eval host fuel state enclosed script)
      (s.eval host fuel state enclosed script') := ends
  refine ⟨silent', ?_⟩
  generalize s.eval host fuel state enclosed script = o at ends ⊢
  generalize s.eval host fuel state enclosed script' = o' at ends ⊢
  cases ends with
  | none => exact .none
  | some twin =>
    have session := twin.session
    exact .some ⟨twin.cause_eq, session.result rfl, session.scopes, session.call, session.depth⟩

theorem eval_layout_commented :
    let host : Host Unit := { natives := fun _ _ => .done () }
    let s : Session := { id := ⟨0, 1⟩, scopes := { globals := Table.insert {} "x" "0" } }
    let script := "for (i = 0; i < 3; i++) x = x + i\nif (x == 3) y = (1 +\n2) * z"
    let script' :=
      "for(i=0;i<3;i++)/* sum */x=x+i // so far\n\tif ( x==3 ) y=( 1+ // and on\n  2 )*z /**/"
    ∃ fin fin', s.eval host 400 () false script = some fin ∧
      s.eval host 400 () false script' = some fin' ∧
      fin.answer = .error ⟨.undefinedVariable "z", 3⟩ ∧
      fin'.answer.mapError (·.cause) = .error (.undefinedVariable "z") ∧
      fin'.session.scopes = fin.session.scopes := by
  intro host s script script'
  have ends : (s.eval host 400 () false script).bind (fun fin =>
      match fin.answer with
      | .ok _ => none
      | .error fault => some fault) = some { cause := .undefinedVariable "z", line := 3 } := by
    decide +kernel
  have silent : s.evalCalls host 400 () false script = [] :=
    List.length_eq_zero_iff.mp (by decide +kernel)
  have same : (Input.ofScript script').tokens = (Input.ofScript script).tokens := by
    decide +kernel
  obtain ⟨fin, executed, failed⟩ := Option.bind_eq_some_iff.mp ends
  have alike := (eval_layout host 400 s () false script script' _ (Input.lexes_tokens rfl)
    (same ▸ Input.lexes_tokens rfl) silent).2
  rw [executed] at alike
  generalize executed' : s.eval host 400 () false script' = o at alike
  cases alike with
  | some alike =>
    obtain ⟨cause, -, scopes, -⟩ := alike
    generalize answered : fin.answer = answer at cause failed
    cases answer with
    | ok value => cases failed
    | error fault =>
      cases failed
      exact ⟨fin, _, executed, rfl, answered, cause, scopes⟩

end Session

end Scriptlet
