import Scriptlet.Proofs.Evaluation

/-!
Steps of expression frames as steps of an evaluation: what a term opens with, what a call collects,
and how each operator goes on with another operand.
-/

namespace Scriptlet

variable {H α : Type}

/-! ### Reading -/

/-- Reading `seed`, if there is one, and then from `i` gives these tokens, and from then on the same
as reading from `j`. -/
def Input.Seeded (i : Input) (seed : Option Token) (ts : List Token) (j : Input) : Prop :=
  match seed with
  | none => i.Streams ts j
  | some t => ∃ rest, ts = t :: rest ∧ i.Streams rest j

theorem Input.Seeded.split {i k : Input} {seed : Option Token} {ts us : List Token}
    (h : i.Seeded seed (ts ++ us) k) (some : ts ≠ []) :
    ∃ j, i.Seeded seed ts j ∧ j.Streams us k := by
  cases seed with
  | none => exact Streams.split h
  | some t =>
    obtain ⟨rest, heq, read⟩ := h
    cases ts with
    | nil => exact absurd rfl some
    | cons first ts =>
      obtain ⟨rfl, rfl⟩ : first = t ∧ ts ++ us = rest := by simpa using heq
      obtain ⟨j, before, behind⟩ := read.split
      exact ⟨j, ⟨ts, rfl, before⟩, behind⟩

theorem Lexeme.token_valid (l : Lexeme) : l.token.kind ≠ .error := by
  cases l with
  | symbol kind fixed =>
    rintro rfl
    cases fixed
  | _ => simp [token]

namespace Session

variable {exe : Bool} {s s' : Session}

theorem Moved.env (h : s.Moved exe s') (natives : Natives) : s'.env natives = s.env natives := by
  obtain ⟨_, _, _, rfl, _⟩ := h
  rfl

theorem Moved.depth (h : s.Moved exe s') : s'.depth = s.depth := by
  obtain ⟨_, _, _, rfl, _⟩ := h
  rfl

theorem Moved.limits (h : s.Moved exe s') : s'.limits = s.limits := by
  obtain ⟨_, _, _, rfl, _⟩ := h
  rfl

theorem Moved.read (s : Session) (input : Input) (t : Token) :
    s.Moved exe { s with input, token := t } :=
  ⟨input, t, s.result, rfl, fun _ => rfl⟩

end Session

namespace Leads

variable {host : Host H} {name : String} {phase : Phase} {exe : Bool} {s : Session}
  {y : String → Act Move} {j : Input}

/-- A value computed only while something is executed. -/
theorem compute {x : Act String} {r : Except Fault.Cause String}
    (place : s.input.next phase = j.next phase)
    (same : ∀ journal, x.on ⟨s, journal⟩ = (Act.ofExcept r).on ⟨s, journal⟩) :
    Leads host name phase exe ((if exe then x else Pure.pure "") >>= y) s
      ((Evaluation.ofExcept r).when exe) y j := by
  cases exe with
  | false => exact .gives (Act.gives_pure "" s) (.refl s) (.pure place)
  | true =>
    cases r with
    | ok value =>
      have known : x.Gives s value s := fun journal => ⟨journal, same journal⟩
      exact .gives known (.refl s) (.pure place)
    | error cause =>
      have failed : x.Fails s cause s := fun journal => ⟨journal, _, same journal, rfl⟩
      exact .fail failed.bind

/-- The value that an inner frame has left. -/
theorem innerValue {flags : Flags} {value : String} {ev : Evaluation String}
    (place : s.input.next phase = j.next phase)
    (left : (ev.when flags.executes).outcome = .ok value)
    (result : flags.executes = true → s.result = value) :
    Leads host name phase flags.executes (Frame.innerValue flags >>= y) s
      (Pure.pure value : Evaluation String) y j := by
  unfold Frame.innerValue
  cases exe : flags.executes with
  | true =>
    obtain rfl := result exe
    refine .gives (Act.gives_takeResult s) ⟨_, _, _, rfl, by simp⟩ (.pure place)
  | false =>
    obtain rfl : "" = value := by
      rw [exe] at left
      exact Except.ok.inj left
    exact .gives (Act.gives_pure "" s) (.refl s) (.pure place)

end Leads

/-! ### Terms -/

namespace Frame

open Act

variable {host : Host H} {flags : Flags} {nl : Bool} {s : Session} {j : Input}

theorem closeTerm_leads (place : s.input.next (lookahead nl) = j.next (lookahead nl))
    (terms : Terms) (value : String) :
    Leads host "expr" (lookahead nl) flags.executes (closeTerm flags nl terms value) s
      ((Evaluation.ofExcept (combine terms value)).when flags.executes) (closeExpr flags nl) j := by
  rw [closeTerm_eq]
  exact .compute place fun _ => rfl

/-- What is read over has no value. -/
theorem closeTerm_scan (scans : flags.executes = false) (terms : Terms) (value : String) :
    closeTerm flags nl terms value = closeTerm flags nl terms "" := by
  simp [closeTerm_eq, scans]

theorem combine_unary (op : Unary) (terms : Terms) (stage : TermStage) (value : String) :
    combine { terms with stage, unary := op :: terms.unary } value =
      Syntax.applyUnary op value >>= combine terms := by
  cases op with
  | minus =>
    simp only [combine, List.foldlM_cons, Syntax.applyUnary, applyUnary]
    cases Value.negate value <;> rfl
  | not => rfl

/-- A unary operator applies to its term before what is in front of it. -/
theorem closeTerm_unary (place : s.input.next (lookahead nl) = j.next (lookahead nl))
    (op : Unary) (terms : Terms) (stage : TermStage) (value : String) :
    Leads host "expr" (lookahead nl) flags.executes
      (closeTerm flags nl { terms with stage, unary := op :: terms.unary } value) s
      ((Evaluation.ofExcept (Syntax.applyUnary op value)).when flags.executes)
      (closeTerm flags nl terms) j := by
  rw [closeTerm_eq, combine_unary]
  cases exe : flags.executes with
  | false =>
    have same : (if false = true then ofExcept (Syntax.applyUnary op value >>= combine terms)
        else pure "") >>= closeExpr flags nl = closeTerm flags nl terms "" := by
      simp [closeTerm_eq, exe]
    rw [same]
    exact .pure place
  | true =>
    cases happly : Syntax.applyUnary op value with
    | error cause => exact .fail (fails_fail cause s).bind
    | ok applied =>
      have same : (if true = true then ofExcept (Except.ok applied >>= combine terms)
          else pure "") >>= closeExpr flags nl = closeTerm flags nl terms applied := by
        simp only [closeTerm_eq, exe, if_true]
        rfl
      rw [same]
      exact .pure place

theorem literal_leads (place : s.input.next (lookahead nl) = j.next (lookahead nl))
    (terms : Terms) (value : String) :
    Leads host "expr" (lookahead nl) flags.executes (openTerm flags nl terms ⟨.literal, value⟩) s
      ((pure value : Evaluation String).when flags.executes) (closeTerm flags nl terms) j := by
  show Leads host "expr" (lookahead nl) flags.executes (closeTerm flags nl terms value) s _ _ j
  cases exe : flags.executes with
  | true => exact .pure place
  | false =>
    rw [closeTerm_scan exe]
    exact .pure place

theorem variable_leads (place : s.input.next (lookahead nl) = j.next (lookahead nl))
    (natives : Natives) (terms : Terms) (name : String) :
    Leads host "expr" (lookahead nl) flags.executes (openTerm flags nl terms ⟨.identifier, name⟩) s
      (((s.env natives).lookup name).when flags.executes) (closeTerm flags nl terms) j := by
  rw [openTerm_identifier]
  cases exe : flags.executes with
  | false => exact .gives (gives_pure "" s) (.refl s) (.pure place)
  | true =>
    cases bound : s.scopes.get? name with
    | some value =>
      have known : (s.env natives).lookup name = pure value := by
        simp [Env.lookup, Session.env, bound]
      rw [known]
      exact .gives (gives_readVariable bound) (.refl s) (.pure place)
    | none =>
      have unknown : (s.env natives).lookup name = .fail (.undefinedVariable name) := by
        simp [Env.lookup, Session.env, bound]
      rw [unknown]
      exact .fail (fails_readVariable bound).bind

theorem openTerm_unary (terms : Terms) (op : Unary) :
    openTerm flags nl terms (Syntax.unaryLexeme op).token =
      pure (.stay ⟨flags, .expr nl
        { terms with stage := .term none, unary := op :: terms.unary }⟩) := by
  cases op <;> rfl

/-- A chain that is to read a term opens it with its first token, which may have been read. -/
theorem stepExpr_leads {seed : Option Token} {ls : List Lexeme} {terms : Terms}
    {ev : Evaluation α} {y : α → Act Move} (stage : terms.stage = .term seed)
    (read : s.input.Seeded seed (ls.map Lexeme.token) j) (some : ls ≠ [])
    (k : ∀ first rest s', ls.map Lexeme.token = first :: rest → s.Moved flags.executes s' →
      s'.input.Streams rest j →
      Leads host "expr" (lookahead nl) flags.executes (openTerm flags nl terms first) s' ev y j) :
    Leads host "expr" (lookahead nl) flags.executes (stepExpr flags nl terms) s ev y j := by
  simp only [stepExpr, stage]
  cases seed with
  | some t =>
    obtain ⟨rest, heq, others⟩ := read
    exact k t rest s heq (.refl s) others
  | none =>
    cases ls with
    | nil => exact absurd rfl some
    | cons l ls =>
      obtain ⟨behind, first, others⟩ := read
      exact .gives (gives_nextToken (first .expr) l.token_valid) (.read s behind l.token)
        (k l.token _ _ rfl (.read s behind l.token) others)

/-- Behind a closing parenthesis. -/
theorem paren_leads {ev : Evaluation String} {terms : Terms} {close : Token} {behind : Input}
    (room : s.depth < s.limits.maxDepth) (closes : close.kind = .rparen)
    (place : behind.next (lookahead nl) = j.next (lookahead nl))
    (again : (behind.unread close).next .expr = (close, behind))
    (h : Yields host (newCond flags false none) .condDone s (ev.when flags.executes) close
      (behind.unread close)) :
    Leads host "expr" (lookahead nl) flags.executes (openTerm flags nl terms (.symbol .lparen)) s
      (ev.when flags.executes) (closeTerm flags nl terms) j := by
  have whole : Leads host "expr" (lookahead nl) flags.executes
      (pure (.push ⟨flags, .expr nl { terms with stage := .afterParen }⟩ (newCond flags false none)))
      s (ev.when flags.executes >>= pure) (closeTerm flags nl terms) j := by
    refine .push rfl room (fun scans => scans) h fun v hv => ?_
    refine .gives (gives_expect again closes (by simp)) (.read _ behind close) ?_
    exact .innerValue place hv fun exe => if_pos exe
  rw [Evaluation.bind_pure] at whole
  exact whole

end Frame

/-! ### Calls -/

def Session.addArgs (s : Session) (values : List String) : Session :=
  { s with call := s.call.map fun c => { c with args := c.args ++ values } }

theorem Session.addArgs_nil (s : Session) : s.addArgs [] = s := by
  simp [addArgs]

theorem Session.addArgs_addArgs (s : Session) (values more : List String) :
    (s.addArgs values).addArgs more = s.addArgs (values ++ more) := by
  simp [addArgs, Function.comp_def]

/-- An argument list that does `x` completes behind its parenthesis, with the values of `ev` added
to the call under construction. -/
structure Collects (host : Host H) (exe : Bool) (x : Act Move) (s : Session)
    (ev : Evaluation (List String)) (last : Input) : Prop where
  ok : ∀ {values}, ev.outcome = .ok values → ∃ result, (exe = false → result = s.result) ∧
    Runs host "arglist" x s (.ok .argListDone)
      ({ s with input := last, token := .symbol .rparen, result }.addArgs values).leave ev.calls
  error : ∀ {cause}, ev.outcome = .error cause →
    ∃ s', s.Spoiled s' ∧ Runs host "arglist" x s (.error cause) s' ev.calls

theorem Collects.moves {host : Host H} {exe : Bool} {x : Act Move} {move : Move} {s s₁ : Session}
    {ev : Evaluation (List String)} {last : Input} (h : x.Gives s move s₁) (moved : s.Moved exe s₁)
    (k : Collects host exe (pure move) s₁ ev last) : Collects host exe x s ev last := by
  constructor
  · intro values hev
    obtain ⟨result, keep, run⟩ := k.ok hev
    obtain ⟨_, _, _, rfl, keep'⟩ := moved
    exact ⟨result, fun off => (keep off).trans (keep' off), Runs.moves h run⟩
  · intro cause hev
    obtain ⟨s', spoiled, run⟩ := k.error hev
    exact ⟨s', moved.spoiled spoiled, Runs.moves h run⟩

namespace Frame

open Act

variable {host : Host H} {flags : Flags} {s : Session} {last : Input}

theorem gives_addArgument (s : Session) :
    addArgument.Gives s () ({ s with result := "" }.addArgs [s.result]) :=
  (gives_takeResult s).bind (gives_update _ _)

theorem collects_nil {f : Token → Act Move}
    (next : s.input.next .argList = (.symbol .rparen, last))
    (done : f (.symbol .rparen) = pure (.done .argListDone)) :
    Collects host flags.executes (nextToken .argList >>= f) s
      ((pure [] : Evaluation (List String)).when flags.executes) last := by
  have value : (pure [] : Evaluation (List String)).when flags.executes = pure [] := by
    cases flags.executes <;> rfl
  rw [value]
  refine ⟨?_, by rintro _ ⟨⟩⟩
  rintro _ ⟨⟩
  refine ⟨s.result, fun _ => rfl, ?_⟩
  rw [Session.addArgs_nil]
  refine .gives (gives_nextToken next (by simp [Token.symbol])) ?_
  rw [done]
  exact .done .argListDone _

section Argument

variable {ev : Evaluation String} {t : Token} {i : Input}

/-- An argument that is read over, and then the others. -/
theorem collects_scanned (scans : flags.executes = false) (room : s.depth < s.limits.maxDepth)
    (h : Yields host (newCond flags false none) .condDone s (pure "") t i)
    (k : ∀ call result, Collects host false (afterArgument flags)
      { s with input := i, token := t, result, call } (pure []) last) :
    Collects host false (pure (.push ⟨flags, .arguments⟩ (newCond flags false none))) s (pure [])
      last := by
  refine ⟨?_, by rintro _ ⟨⟩⟩
  rintro _ ⟨⟩
  obtain ⟨result, keep, run⟩ := (k s.call s.result).ok rfl
  have inner := h.ok rfl
  simp only [newCond, scans] at inner
  refine ⟨result, keep, inner.push room ?_⟩
  show Runs host "arglist" (stepArguments flags (some .condDone)) _ _ _ _
  rw [stepArguments_some, scans]
  exact .gives (gives_pure () _) run

/-- An argument that is executed is added to the call, and the list goes on. -/
theorem runs_argument {value : String} {r : Except Fault.Cause Phase} {s' : Session}
    {calls : Calls} (exe : flags.executes = true) (room : s.depth < s.limits.maxDepth)
    (h : Yields host (newCond flags false none) .condDone s ev t i) (hev : ev.outcome = .ok value)
    (run : Runs host "arglist" (afterArgument flags)
      ({ s with input := i, token := t, result := "" }.addArgs [value]) r s' calls) :
    Runs host "arglist" (pure (.push ⟨flags, .arguments⟩ (newCond flags false none))) s r s'
      (ev.calls ++ calls) := by
  have inner := h.ok hev
  simp only [newCond, exe] at inner
  refine inner.push room ?_
  show Runs host "arglist" (stepArguments flags (some .condDone)) _ _ _ _
  rw [stepArguments_some, exe]
  exact .gives (gives_addArgument _) run

/-- One argument, and then the others. -/
theorem collects_cons {others : Evaluation (List String)} (room : s.depth < s.limits.maxDepth)
    (h : Yields host (newCond flags false none) .condDone s (ev.when flags.executes) t i)
    (k : ∀ call result, Collects host flags.executes (afterArgument flags)
      { s with input := i, token := t, result, call } (others.when flags.executes) last) :
    Collects host flags.executes
      (pure (.push ⟨flags, .arguments⟩ (newCond flags false none))) s
      ((ev >>= fun value => others >>= fun values => pure (value :: values)).when flags.executes)
      last := by
  cases exe : flags.executes with
  | false =>
    simp only [exe, Evaluation.when_false] at h k ⊢
    exact collects_scanned exe room h k
  | true =>
    simp only [exe, Evaluation.when_true] at h k ⊢
    cases hev : ev.outcome with
    | error cause =>
      rw [Evaluation.bind_error hev]
      refine ⟨by rintro _ ⟨⟩, ?_⟩
      rintro _ ⟨⟩
      obtain ⟨s', spoiled, run⟩ := h.error hev
      exact ⟨s', spoiled, run.push_fails room⟩
    | ok value =>
      have next := k (s.addArgs [value]).call ""
      rw [Evaluation.bind_ok hev]
      cases hothers : others.outcome with
      | error cause =>
        rw [Evaluation.bind_error hothers]
        refine ⟨by rintro _ ⟨⟩, ?_⟩
        rintro _ ⟨⟩
        obtain ⟨s', ⟨input, token, result, call, depth, rfl⟩, run⟩ := next.error hothers
        exact ⟨_, ⟨input, token, result, call, depth, rfl⟩, runs_argument exe room h hev run⟩
      | ok values =>
        rw [Evaluation.bind_ok hothers]
        refine ⟨?_, by rintro _ ⟨⟩⟩
        rintro _ ⟨⟩
        obtain ⟨result, keep, run⟩ := next.ok hothers
        refine ⟨result, by simp, ?_⟩
        have added := Session.addArgs_addArgs
          { s with input := last, token := .symbol .rparen, result } [value] values
        rw [Evaluation.calls_pure, List.append_nil, ← List.singleton_append, ← added]
        exact runs_argument exe room h hev run

end Argument

section Call

variable {natives : Natives} {observe : Event → H → H} {name : String}
  {args : Evaluation (List String)} {i : Input}

/-- A call that is read over. -/
theorem call_scans (scans : flags.executes = false)
    (next : s.input.next .expr = (.symbol .lparen, i)) (room : s.depth + 1 < s.limits.maxDepth)
    (k : ∀ call, Collects host flags.executes (stepArguments flags none)
      { s with input := i, token := .symbol .lparen, call, depth := s.depth + 2 }
      (args.when flags.executes) last) :
    Runs host "call" (stepCall flags name .opening) s.enter (.ok .exprDone)
      { s with input := last, token := .symbol .rparen } [] := by
  rw [scans] at k
  have empty : (args.when false).outcome = .ok [] := rfl
  obtain ⟨result, keep, run⟩ := (k s.call).ok empty
  obtain rfl := keep rfl
  rw [Session.addArgs_nil] at run
  refine .gives (gives_expect next rfl (by simp)) ?_
  simp only [scans, Bool.false_eq_true, if_false, pure_bind]
  have whole : Runs host "call"
      (pure (.push ⟨flags, .call name (.invoking none)⟩ ⟨flags, .arguments⟩))
      { s.enter with input := i, token := .symbol .lparen } (.ok .exprDone) _ ([] ++ []) :=
    .push room run (.done .exprDone _)
  exact whole

/-- An executed call finds its function and begins its arguments. -/
theorem gives_call_opening {callable : Callable} (exe : flags.executes = true)
    (next : s.input.next .expr = (.symbol .lparen, i))
    (known : s.functions.get? name = some callable) :
    (stepCall flags name .opening).Gives s
      (.push ⟨flags, .call name (.invoking (some (callable, s.call)))⟩ ⟨flags, .arguments⟩)
      { s with input := i, token := .symbol .lparen, call := some { name } } := by
  refine (gives_expect next rfl Token.Kind.noConfusion).bind ?_
  simp only [exe, if_true]
  refine (gives_session _).bind ?_
  simp only [known, pure_bind]
  exact (gives_setSession _ _).bind (gives_pure _ _)

theorem fails_call_opening (exe : flags.executes = true)
    (next : s.input.next .expr = (.symbol .lparen, i)) (unknown : s.functions.get? name = none) :
    (stepCall flags name .opening).Fails s (.undefinedFunction name)
      { s with input := i, token := .symbol .lparen } := by
  refine (gives_expect next rfl Token.Kind.noConfusion).fails_bind ?_
  simp only [exe, if_true]
  refine (gives_session _).fails_bind ?_
  simp only [unknown]
  exact (fails_fail _ _).bind

theorem gives_call_invoking (flags : Flags) {callable : Callable} {saved : Option Call} (s : Session)
    (values : List String) (started : s.call = some ⟨name, values⟩) :
    (stepCall flags name (.invoking (some (callable, saved)))).Gives s
      (.invoke callable values saved) { s with result := "" } := by
  refine (gives_session _).bind ((gives_emit _ _).bind ?_)
  refine (gives_update _ _).bind ?_
  simp only [started]
  exact gives_pure _ _

/-- A call of a known function collects its arguments and invokes it. -/
theorem call_yields_known {callable : Callable} (exe : flags.executes = true)
    (next : s.input.next .expr = (.symbol .lparen, i))
    (known : s.functions.get? name = some callable) (room : s.depth + 1 < s.limits.maxDepth)
    (begun : Collects (.ofNatives natives observe) true (stepArguments flags none)
      { s with input := i, token := .symbol .lparen, call := some { name }, depth := s.depth + 2 }
      args last) :
    Yields (.ofNatives natives observe) ⟨flags, .call name .opening⟩ .exprDone s
      (args >>= fun values => (s.env natives).invoke callable.key values) (.symbol .rparen)
      last := by
  have opening := gives_call_opening (s := s.enter) exe next known
  cases hargs : args.outcome with
  | error cause =>
    rw [Evaluation.bind_error hargs]
    refine ⟨by rintro _ ⟨⟩, ?_⟩
    rintro _ ⟨⟩
    obtain ⟨s', ⟨input, token, result, call, depth, rfl⟩, run⟩ := begun.error hargs
    exact ⟨_, ⟨input, token, result, call, depth, rfl⟩, .moves opening (run.push_fails room)⟩
  | ok values =>
    obtain ⟨result, -, run⟩ := begun.ok hargs
    have invoking : ∀ {r s' calls}, Runs (.ofNatives natives observe) "call"
        (pure (.invoke callable values s.call))
        { s.enter with
          input := last
          token := .symbol .rparen
          result := ""
          call := some ⟨name, values⟩ } r s' calls →
        Runs (.ofNatives natives observe) "call" (stepCall flags name .opening) s.enter r s'
          (args.calls ++ calls) :=
      fun call => .moves opening (.push room run (.moves
        (gives_call_invoking flags _ values rfl) call))
    rw [Evaluation.bind_ok hargs]
    cases answer : natives callable.key values with
    | ok value =>
      simp only [Env.invoke, Session.env, answer]
      refine ⟨?_, by rintro _ ⟨⟩⟩
      rintro _ ⟨⟩
      simp only [exe, if_true]
      exact invoking (.invoke s.call answer)
    | error fault =>
      simp only [Env.invoke, Session.env, answer]
      refine ⟨by rintro _ ⟨⟩, ?_⟩
      rintro _ ⟨⟩
      exact ⟨_, ⟨_, _, _, _, _, rfl⟩, invoking (.invoke_fails s.call answer)⟩

theorem call_yields (next : s.input.next .expr = (.symbol .lparen, i))
    (room : s.depth + 1 < s.limits.maxDepth)
    (k : ∀ call, Collects (.ofNatives natives observe) flags.executes (stepArguments flags none)
      { s with input := i, token := .symbol .lparen, call, depth := s.depth + 2 }
      (args.when flags.executes) last) :
    Yields (.ofNatives natives observe) ⟨flags, .call name .opening⟩ .exprDone s
      (((s.env natives).function name >>= fun callable => args >>= fun values =>
        (s.env natives).invoke callable.key values).when flags.executes) (.symbol .rparen) last := by
  cases exe : flags.executes with
  | false =>
    refine ⟨?_, by rintro _ ⟨⟩⟩
    rintro _ ⟨⟩
    simp only [exe]
    exact call_scans exe next room k
  | true =>
    simp only [exe, Evaluation.when_true] at k ⊢
    cases known : s.functions.get? name with
    | none =>
      have unknown : (s.env natives).function name = .fail (.undefinedFunction name) := by
        simp [Env.function, Session.env, known]
      rw [unknown, Evaluation.bind_error rfl]
      refine ⟨by rintro _ ⟨⟩, ?_⟩
      rintro _ ⟨⟩
      exact ⟨_, ⟨_, _, _, _, _, rfl⟩, .fails (fails_call_opening exe next known)⟩
    | some callable =>
      have found : (s.env natives).function name = pure callable := by
        simp [Env.function, Session.env, known]
      rw [found, Evaluation.pure_bind]
      exact call_yields_known exe next known room (k _)

end Call

theorem call_leads {nl : Bool} {name : String} {ev : Evaluation String} {terms : Terms}
    {t : Token} {j : Input} (room : s.depth < s.limits.maxDepth)
    (place : last.next (lookahead nl) = j.next (lookahead nl))
    (h : Yields host ⟨flags, .call name .opening⟩ .exprDone s (ev.when flags.executes) t last) :
    Leads host "expr" (lookahead nl) flags.executes (openTerm flags nl terms ⟨.function, name⟩) s
      (ev.when flags.executes) (closeTerm flags nl terms) j := by
  have whole : Leads host "expr" (lookahead nl) flags.executes
      (pure (.push ⟨flags, .expr nl { terms with stage := .afterCall }⟩
        ⟨flags, .call name .opening⟩)) s (ev.when flags.executes >>= pure)
      (closeTerm flags nl terms) j := by
    refine .push rfl room (fun scans => scans) h fun v hv => ?_
    exact .innerValue place hv fun exe => if_pos exe
  rw [Evaluation.bind_pure] at whole
  exact whole

/-! ### Operators -/

section Operators

variable {nl : Bool} {ev : Evaluation String} {t : Token} {i j behind : Input}

theorem closeExpr_arithmetic {value : String} (op : Syntax.Arithmetic)
    (next : s.input.next (lookahead nl) = (op.lexeme.token, i)) :
    (closeExpr flags nl value).Gives s
      (.stay ⟨flags, .expr nl { stage := .term none, left := some (value, op.1) }⟩)
      { s with input := i, token := op.lexeme.token } := by
  refine (gives_nextToken next (Lexeme.token_valid _)).bind ?_
  simp only [Syntax.Arithmetic.lexeme, Lexeme.token, Token.symbol, op.2, if_true]
  exact gives_pure _ _

/-- An arithmetic operator goes on with another term. -/
theorem closeExpr_applies {y : String → Act Move} {value : String} (op : Syntax.Arithmetic)
    (next : s.input.next (lookahead nl) = (op.lexeme.token, i))
    (k : Leads host "expr" (lookahead nl) flags.executes
      (stepExpr flags nl { stage := .term none, left := some (value, op.1) })
      { s with input := i, token := op.lexeme.token } ev y j) :
    Leads host "expr" (lookahead nl) flags.executes (closeExpr flags nl value) s ev y j :=
  .moves (closeExpr_arithmetic op next) (.read s i _) (.stay rfl k)

theorem stepRel_leads {seed : Option Token} (room : s.depth < s.limits.maxDepth)
    (next : j.next (lookahead nl) = (t, behind))
    (h : Yields host (newExpr flags nl seed) .exprDone s (ev.when flags.executes) t
      (behind.unread t)) :
    Leads host "relexp" (lookahead nl) flags.executes (stepRel flags nl (.start seed)) s
      (ev.when flags.executes) (closeRel flags nl) j := by
  have whole : Leads host "relexp" (lookahead nl) flags.executes
      (pure (.push ⟨flags, .rel nl .first⟩ (newExpr flags nl seed))) s
      (ev.when flags.executes >>= pure) (closeRel flags nl) j := by
    refine .push rfl room (fun scans => scans) h fun v hv => ?_
    show Leads host "relexp" (lookahead nl) flags.executes (stepRel flags nl .first) _ _ _ j
    rw [stepRel_first]
    exact .innerValue ((Input.next_unread_next next _).trans next.symm) hv fun exe => if_pos exe
  rw [Evaluation.bind_pure] at whole
  exact whole

theorem on_relValue (left : String) (op : Operator) (s : Session) (journal : List Event) :
    (relValue (.joining left op)).on ⟨s, journal⟩ =
      (ofExcept ((Value.relate op left s.result).map Value.ofBool)).on ⟨s, journal⟩ := by
  simp only [relValue, on_bind, on_session, on_ofExcept]
  cases Value.relate op left s.result <;> rfl

theorem closeRel_relational {value : String} (op : Syntax.Comparison)
    (next : s.input.next (lookahead nl) = (op.lexeme.token, i)) :
    (closeRel flags nl value).Gives s
      (.push ⟨flags, .rel nl (.joining value op.1)⟩ (newExpr flags nl none))
      { s with input := i, token := op.lexeme.token } := by
  refine (gives_nextToken next (Lexeme.token_valid _)).bind ?_
  simp only [Syntax.Comparison.lexeme, Lexeme.token, Token.symbol, op.2, if_true]
  exact gives_pure _ _

/-- A comparison goes on with another operand. -/
theorem closeRel_compares {value : String} (op : Syntax.Comparison)
    (read : s.input.next (lookahead nl) = (op.lexeme.token, i)) (room : s.depth < s.limits.maxDepth)
    (next : j.next (lookahead nl) = (t, behind))
    (h : Yields host (newExpr flags nl none) .exprDone
      { s with input := i, token := op.lexeme.token } (ev.when flags.executes) t
      (behind.unread t)) :
    Leads host "relexp" (lookahead nl) flags.executes (closeRel flags nl value) s
      ((ev >>= fun right =>
        .ofExcept ((Value.relate op.1 value right).map Value.ofBool)).when flags.executes)
      (closeRel flags nl) j := by
  rw [Evaluation.when_bind]
  refine .moves (closeRel_relational op read) (.read s i _) ?_
  refine .push rfl room (fun scans => scans) h fun right hright => ?_
  show Leads host "relexp" (lookahead nl) flags.executes (stepRel flags nl (.joining value op.1)) _ _
    _ j
  rw [stepRel_joining]
  have place := (Input.next_unread_next next (lookahead nl)).trans next.symm
  cases exe : flags.executes with
  | false => exact .gives (gives_pure "" _) (.refl _) (.pure place)
  | true =>
    refine .compute place fun journal => ?_
    simp [on_relValue, newExpr, exe]

theorem stepCond_leads {seed : Option Token} (room : s.depth < s.limits.maxDepth)
    (next : j.next (lookahead nl) = (t, behind))
    (h : Yields host (newRel flags nl seed) .relExpDone s (ev.when flags.executes) t
      (behind.unread t)) :
    Leads host "cond" (lookahead nl) flags.executes (stepCond flags nl (.start seed)) s
      (ev.when flags.executes) (closeCond flags nl) j := by
  have whole : Leads host "cond" (lookahead nl) flags.executes
      (pure (.push ⟨flags, .cond nl .first⟩ (newRel flags nl seed))) s
      (ev.when flags.executes >>= pure) (closeCond flags nl) j := by
    refine .push rfl room (fun scans => scans) h fun v hv => ?_
    show Leads host "cond" (lookahead nl) flags.executes (stepCond flags nl .first) _ _ _ j
    rw [stepCond_first]
    exact .innerValue ((Input.next_unread_next next _).trans next.symm) hv fun exe => if_pos exe
  rw [Evaluation.bind_pure] at whole
  exact whole

def joined (settled : Bool) (op : Logical) (left right : String) : Except Fault.Cause String :=
  if settled then .ok (Value.ofBool (Value.truthy left)) else Value.logical op left right

/-- A left side that settles leaves the right one unevaluated. -/
theorem connect_when (exe : Bool) (op : Syntax.Connective) (left : String)
    (right : Evaluation String) :
    (Syntax.connect op left right).when exe =
      right.when (exe && !(exe && settles op.1 left)) >>= fun value =>
        (Evaluation.ofExcept (joined (exe && settles op.1 left) op.1 left value)).when exe := by
  obtain ⟨op, known⟩ := op
  cases exe with
  | false => simp
  | true =>
    cases op with
    | not => exact absurd rfl known
    | and =>
      cases truth : Value.truthy left with
      | false =>
        simp [Syntax.connect, settles, truth, joined]
        rfl
      | true => simp [Syntax.connect, settles, truth, joined]
    | or =>
      cases truth : Value.truthy left with
      | false => simp [Syntax.connect, settles, truth, joined]
      | true =>
        simp [Syntax.connect, settles, truth, joined]
        rfl

theorem on_condValue (settled : Bool) (op : Logical) (left : String) (s : Session)
    (journal : List Event) :
    (condValue (.joining left op settled)).on ⟨s, journal⟩ =
      (ofExcept (joined settled op left s.result)).on ⟨s, journal⟩ := by
  cases settled <;> rfl

theorem closeCond_logical {value : String} (op : Syntax.Connective)
    (read : s.input.next (lookahead nl) = (op.lexeme.token, i)) :
    (closeCond flags nl value).Gives s (joinCond flags nl value op.1)
      { s with input := i, token := op.lexeme.token } := by
  refine (gives_nextToken read (Lexeme.token_valid _)).bind ?_
  obtain ⟨op, known⟩ := op
  cases op with
  | not => exact absurd rfl known
  | and => exact gives_pure _ _
  | or => exact gives_pure _ _

/-- A connective goes on with another operand, which is read over if the left side settles. -/
theorem closeCond_joins {value : String} (op : Syntax.Connective)
    (read : s.input.next (lookahead nl) = (op.lexeme.token, i)) (room : s.depth < s.limits.maxDepth)
    (next : j.next (lookahead nl) = (t, behind))
    (h : ∀ flags', Yields host (newRel flags' nl none) .relExpDone
      { s with input := i, token := op.lexeme.token } (ev.when flags'.executes) t
      (behind.unread t)) :
    Leads host "cond" (lookahead nl) flags.executes (closeCond flags nl value) s
      ((Syntax.connect op value ev).when flags.executes) (closeCond flags nl) j := by
  have right := h (flags.executeIf !(flags.executes && settles op.1 value))
  rw [Flags.executes_executeIf] at right
  rw [connect_when]
  refine .moves (closeCond_logical op read) (.read s i _) ?_
  refine .push rfl room (fun scans => by simp [newRel, scans]) right fun v hv => ?_
  show Leads host "cond" (lookahead nl) flags.executes
    (stepCond flags nl (.joining value op.1 (flags.executes && settles op.1 value))) _ _ _ j
  rw [stepCond_joining]
  have place := (Input.next_unread_next next (lookahead nl)).trans next.symm
  cases exe : flags.executes with
  | false => exact .gives (gives_pure "" _) (.refl _) (.pure place)
  | true =>
    refine .compute place fun journal => ?_
    rw [on_condValue]
    cases settles op.1 value <;> simp [joined, newRel, exe]

end Operators

end Frame

end Scriptlet
