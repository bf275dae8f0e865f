import Scriptlet.Proofs.Completion

/-!
Scripts as sequences of statements. An evaluation parses one statement after the other, each from
where the one before it has left the session, until one of them does not end as statements do. Who
evaluates the script, and why, makes no difference to the statements.
-/

namespace Scriptlet

def Session.begun (s : Session) (enclosed : Bool) (script : String) : Session :=
  { s with
    input := .ofScript script
    scopes := if enclosed then s.scopes.openBlock.2 else s.scopes
    call := none
    result := ""
    report := none }

def Session.opening (s : Session) (enclosed : Bool) (script : String) : List Event :=
  .eval s.id script.utf8ByteSize ::
    if enclosed then [.openBlock s.id s.scopes.openBlock.1] else []

/-! ### The first token of a statement -/

namespace Frame

open Act

variable {flags : Flags}

inductive Begins (flags : Flags) : Token.Kind → Move → Prop where
  | blank : Begins flags .newline (.stay (newStatement flags))
  | empty : Begins flags .semicolon (.done .stmtDone)
  | ended : Begins flags .eof (.done .eof)
  | closed : Begins flags .rbrace (.done .stmtBlockDone)
  | forward {kind terminated inner} : kind ≠ .newline → kind ≠ .eof → kind ≠ .rbrace →
      Begins flags kind (.push ⟨flags, .statement (.forward terminated)⟩ ⟨flags, inner⟩)

theorem openStatement_begins {t : Token} {scene last : Scene} {move : Move}
    (h : (openStatement flags t).on scene = (.ok move, last)) :
    Begins flags t.kind move ∧ ((∀ self inner, move ≠ .push self inner) → last = scene) := by
  unfold openStatement at h
  split at h
  case h_1 _ kind =>
    cases h
    exact ⟨kind ▸ .blank, fun _ => rfl⟩
  case h_2 _ kind =>
    cases h
    exact ⟨kind ▸ .empty, fun _ => rfl⟩
  case h_3 _ kind =>
    cases h
    exact ⟨kind ▸ .ended, fun _ => rfl⟩
  case h_4 _ kind =>
    cases h
    exact ⟨kind ▸ .closed, fun _ => rfl⟩
  case h_16 => cases h
  all_goals
    rename_i kind
    cases h
    exact ⟨kind ▸ .forward nofun nofun nofun, fun other => absurd rfl (other _ _)⟩

/-- A statement reads its first token. -/
theorem newStatement_begins {inner : Option Phase} {s : Session} {move : Move} {scene : Scene}
    (h : (newStatement flags).act inner s = (.ok move, scene)) :
    ∃ t input, s.input.next .stmt = (t, input) ∧ t.kind ≠ .error ∧ Begins flags t.kind move ∧
      ((∀ self inner, move ≠ .push self inner) →
        scene = took { session := s } .stmt t input) := by
  have act : (nextToken .stmt >>= openStatement flags).on { session := s } = (.ok move, scene) := h
  rw [on_bind] at act
  rcases first : (nextToken .stmt).on { session := s } with ⟨fault | t, mid⟩
  · rw [first] at act
    cases act
  · rw [first] at act
    obtain ⟨input, read, proper, rfl⟩ := nextToken_ok first
    obtain ⟨begins, same⟩ := openStatement_begins act
    exact ⟨t, input, read, proper, begins, same⟩

end Frame

namespace Machine

variable {H : Type} {z : Ask} {host : Host H}

/-- `Executes host s state r s' state' cs`: the statements ahead of `s` are executed one after the
other. The last of them, which ends in `r`, is the first that does not end as a statement does. -/
inductive Executes (host : Host H) : Session → H → Except Fault Phase → Session → H →
    List (Invocation H) → Prop where
  | last {fuel s state r s' state'} :
      s.parse host fuel state .stmt .execute = some ⟨r, s', state'⟩ → r ≠ .ok .stmtDone →
      Executes host s state r s' state' (s.parseCalls host fuel state .stmt .execute)
  | next {fuel s state s₁ state₁ r s' state' cs} :
      s.parse host fuel state .stmt .execute = some ⟨.ok .stmtDone, s₁, state₁⟩ →
      Executes host s₁ state₁ r s' state' cs →
      Executes host s state r s' state' (s.parseCalls host fuel state .stmt .execute ++ cs)

def Config.returning (c : Config H z) : Bool :=
  match c.control with
  | .deliver .phase (.ok .ret) (.script _ _ _ outer) => !outer.inNative
  | _ => false

/-- Whether the script returns within a number of steps. Scripts that a native function runs in its
turn do not count. -/
def returns (host : Host H) : Nat → Config H z → Bool
  | 0, _ => false
  | fuel + 1, c =>
    c.returning ||
      match step host c with
      | .inl _ => false
      | .inr next => returns host fuel next

/-- A run that ends has passed every configuration on its way. -/
theorem Reaches.returns {c d : Config H z} {cs : List (Invocation H)} (h : Reaches host c cs d)
    (returning : d.returning = true) {n : Nat} {fin : Finished H z}
    (ends : run host n c = some fin) : returns host n c = true := by
  induction h generalizing n with
  | refl c =>
    cases n with
    | zero => simp [run] at ends
    | succ n => simp [Machine.returns, returning]
  | head st _ ih =>
    cases n with
    | zero => simp [run] at ends
    | succ n => simp [Machine.returns, st, ih returning (run_step st ends)]

def statementAt (s : Session) (state : H) (waiting : Waiting H z .phase) : Config H z :=
  ⟨(beginParse s .stmt .execute waiting).1, state, (beginParse s .stmt .execute waiting).2⟩

theorem statementAt_drive {s : Session} (room : s.depth < s.limits.maxDepth) (state : H)
    (waiting : Waiting H z .phase) :
    statementAt s state waiting =
      ⟨s.enter, state, .drive s.depth (Frame.newStatement .execute) [] none waiting⟩ := by
  rw [statementAt, Session.beginParse_start room rfl]

/-- A statement is parsed as it is on its own, whoever waits for it. -/
theorem statementAt_plug (s : Session) (state : H) (waiting : Waiting H z .phase) :
    statementAt s state waiting = (statementAt s state .idle).plug waiting := by
  have same := beginParse_plug waiting s .stmt .execute .idle
  simp only [Waiting.plug] at same
  simp only [statementAt, Config.plug, same]

def Waiting.around (s : Session) (enclosed : Bool) (outer : Waiting H z .text) :
    Waiting H z .text :=
  if enclosed then .enclosed s.scopes.depth outer else outer

theorem Waiting.inNative_around (s : Session) (enclosed : Bool) (outer : Waiting H z .text) :
    (outer.around s enclosed).inNative = outer.inNative := by
  cases enclosed <;> rfl

/-- An evaluation starts on the first statement of its script. -/
theorem startEval_begun (host : Host H) (s : Session) (state : H) (enclosed : Bool)
    (script : String) (outer : Waiting H z .text) :
    resume host state (startEval s enclosed script outer) =
      statementAt (s.begun enclosed script) (host.absorb (s.opening enclosed script) state)
        (.script s.input s.call (s.begun enclosed script).scopes.depth
          (outer.around s enclosed)) := by
  cases enclosed with
  | false => rfl
  | true => rfl

section Script

variable {input : Input} {saved : Option Call} {blocks : Nat} {outer : Waiting H z .text}

/-- Behind a statement the next one is begun. -/
theorem step_stmtDone (s : Session) (state : H) :
    step host ⟨s, state, .deliver .phase (.ok .stmtDone) (.script input saved blocks outer)⟩ =
      .inr (statementAt s state (.script input saved blocks outer)) := rfl

variable {s s' : Session} {state state' : H} {r : Except Fault Phase} {cs : List (Invocation H)}
  (direct : outer.inNative = false)
include direct

theorem statement_reaches {fuel : Nat}
    (parsed : s.parse host fuel state .stmt .execute = some ⟨r, s', state'⟩) :
    Reaches host (statementAt s state (.script input saved blocks outer))
      (s.parseCalls host fuel state .stmt .execute)
      ⟨s', state', .deliver .phase r (.script input saved blocks outer)⟩ := by
  have alone := reaches_plug (.script input saved blocks outer) parsed
  rw [if_neg (by simp [Waiting.inNative, direct])] at alone
  rw [statementAt_plug]
  exact alone

theorem Executes.reaches (h : Executes host s state r s' state' cs) :
    Reaches host (statementAt s state (.script input saved blocks outer)) cs
      ⟨s', state', .deliver .phase r (.script input saved blocks outer)⟩ := by
  induction h with
  | last parsed _ => exact statement_reaches direct parsed
  | next parsed _ ih =>
    exact (statement_reaches direct parsed).trans (.quiet (step_stmtDone _ _) rfl ih)

/-- A script that comes to its end executes its statements. -/
theorem executes_of_run {n : Nat} {fin : Finished H z}
    (h : run host n (statementAt s state (.script input saved blocks outer)) = some fin) :
    ∃ r s' state' cs m, Executes host s state r s' state' cs ∧ r ≠ .ok .stmtDone ∧
      run host m ⟨s', state', .deliver .phase r (.script input saved blocks outer)⟩ = some fin ∧
      calls host n (statementAt s state (.script input saved blocks outer)) =
        cs ++ calls host m
          ⟨s', state', .deliver .phase r (.script input saved blocks outer)⟩ := by
  induction n using Nat.strongRecOn generalizing s state with
  | ind n ih =>
    rw [statementAt_plug] at h ⊢
    obtain ⟨fuel, ⟨r, s₁, state₁⟩, m, parsed, le, rest, hcs⟩ := run_plug _ h
    rw [if_neg (by simp [Waiting.inNative, direct])] at hcs
    by_cases again : r = .ok .stmtDone
    · subst again
      obtain ⟨m, rfl⟩ := exists_succ_of_run rest
      have onward := run_step (step_stmtDone s₁ state₁) rest
      obtain ⟨r, s', state', cs, k, executes, other, last, hds⟩ := ih m (by omega) onward
      refine ⟨r, s', state', _, k, .next parsed executes, other, last, ?_⟩
      rw [hcs, calls_step (step_stmtDone s₁ state₁) rfl, hds, ← List.append_assoc]
      rfl
    · exact ⟨r, s₁, state₁, _, m, .last parsed again, again, rest, hcs⟩

end Script

end Machine

namespace Session

open Machine

variable {H : Type} {host : Host H}

def verdict (s : Session) : Except Fault Phase → Except Fault String
  | .ok .eof | .ok .ret => .ok s.result
  | .ok .stmtBlockDone => .error { cause := .unexpected (.symbol .rbrace), line := s.line }
  | .ok phase => .error { cause := .unexpectedPhase phase, line := s.line }
  | .error fault => .error fault

theorem last_of_verdict {s : Session} {r : Except Fault Phase} {value : String}
    (h : s.verdict r = .ok value) : (r = .ok .eof ∨ r = .ok .ret) ∧ s.result = value := by
  rcases r with fault | phase
  · cases h
  · cases phase <;> cases h <;> simp

/-- After its last statement nothing but the answer is left of a script. -/
theorem answer_of_last {s s' : Session} {state : H} {input : Input} {saved : Option Call}
    {blocks fuel : Nat} {enclosed : Bool} {r : Except Fault Phase} {fin : Finished H .text}
    (last : r ≠ .ok .stmtDone)
    (ends : run host fuel ⟨s', state, .deliver .phase r (.script input saved blocks
      (Waiting.idle.around s enclosed))⟩ = some fin) : fin.answer = s'.verdict r := by
  have deliver : ∀ n (s₁ : Session) (state₁ : H) answer, run host n ⟨s₁, state₁,
      .deliver .text answer (Waiting.idle.around s enclosed)⟩ = some fin → fin.answer = answer := by
    intro n s₁ state₁ answer h
    cases enclosed with
    | false =>
      obtain _ | n := n
      · cases h
      · cases h
        rfl
    | true =>
      obtain _ | _ | n := n
      · cases h
      · cases h
      · cases h
        rfl
  obtain _ | fuel := fuel
  · cases ends
  · rcases r with fault | phase
    · exact deliver fuel _ _ _ ends
    · cases phase <;> first | exact absurd rfl last | exact deliver fuel _ _ _ ends

/-- Statements that are executed one after the other are an evaluation, given steps enough. -/
theorem eval_of_executes {s s' : Session} {state state' : H} {enclosed : Bool} {script : String}
    {r : Except Fault Phase} {cs : List (Invocation H)}
    (h : Executes host (s.begun enclosed script) (host.absorb (s.opening enclosed script) state)
      r s' state' cs) (last : r ≠ .ok .stmtDone) :
    ∃ n, ∀ fuel, n ≤ fuel → ∃ fin, s.eval host fuel state enclosed script = some fin ∧
      fin.answer = s'.verdict r := by
  have direct := Waiting.inNative_around s enclosed (.idle : Waiting H .text .text)
  have reaches : Reaches host (Machine.resume host state (startEval s enclosed script .idle)) cs
      ⟨s', state', .deliver .phase r (.script s.input s.call
        (s.begun enclosed script).scopes.depth (Waiting.idle.around s enclosed))⟩ := by
    rw [startEval_begun]
    exact h.reaches direct
  obtain ⟨n, hn⟩ := reaches.run_eq
  refine ⟨n + 3, fun fuel le => ?_⟩
  obtain ⟨m, rfl⟩ : ∃ m, fuel = n + (m + 3) := ⟨fuel - n - 3, by omega⟩
  obtain ⟨fin, ends⟩ : ∃ fin, run host (m + 3) ⟨s', state', .deliver .phase r (.script s.input
      s.call (s.begun enclosed script).scopes.depth (Waiting.idle.around s enclosed))⟩ =
        some fin := by
    rcases r with fault | phase
    · cases enclosed <;> exact ⟨_, rfl⟩
    · cases phase <;> first | exact absurd rfl last | cases enclosed <;> exact ⟨_, rfl⟩
  exact ⟨fin, (hn (m + 3)).1.trans ends, answer_of_last last ends⟩

def evalReturns (host : Host H) (fuel : Nat) (s : Session) (state : H) (enclosed : Bool)
    (script : String) : Bool :=
  returns host fuel (Machine.resume host state (startEval s enclosed script .idle))

/-- An evaluation that comes to its end executes the statements of its script. -/
theorem executes_of_eval {fuel : Nat} {s : Session} {state : H} {enclosed : Bool} {script : String}
    {fin : Finished H .text} (h : s.eval host fuel state enclosed script = some fin) :
    ∃ r s' state' cs m, Executes host (s.begun enclosed script)
        (host.absorb (s.opening enclosed script) state) r s' state' cs ∧
      r ≠ .ok .stmtDone ∧
      (r = .ok .ret → s.evalReturns host fuel state enclosed script = true) ∧
      cs ⊆ s.evalCalls host fuel state enclosed script ∧
      run host m ⟨s', state', .deliver .phase r (.script s.input s.call
        (s.begun enclosed script).scopes.depth (Waiting.idle.around s enclosed))⟩ = some fin := by
  have ends : run host fuel (Machine.resume host state (startEval s enclosed script .idle)) =
      some fin := h
  have calls_eq : s.evalCalls host fuel state enclosed script =
      calls host fuel (Machine.resume host state (startEval s enclosed script .idle)) := rfl
  have returns_eq : s.evalReturns host fuel state enclosed script =
      returns host fuel (Machine.resume host state (startEval s enclosed script .idle)) := rfl
  rw [startEval_begun] at ends calls_eq returns_eq
  have direct := Waiting.inNative_around s enclosed (.idle : Waiting H .text .text)
  obtain ⟨r, s', state', cs, m, executes, other, rest, hcs⟩ := executes_of_run direct ends
  refine ⟨r, s', state', cs, m, executes, other, ?_, ?_, rest⟩
  · rintro rfl
    rw [returns_eq]
    exact (executes.reaches direct).returns (by simp [Config.returning, direct]; rfl) ends
  · rw [calls_eq, hcs]
    exact List.subset_append_left _ _

end Session

end Scriptlet
