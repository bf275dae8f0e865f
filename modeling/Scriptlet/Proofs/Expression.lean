import Scriptlet.Proofs.Operand

/-!
A parse of an expression evaluates its tree. The induction is on the tree; a tier may have had its
first token read already, and each tier is told which token follows it.
-/

namespace Scriptlet

variable {H : Type}

structure Input.Follows (j : Input) (phase : Phase) (ends : Token.Kind → Bool) (t : Token)
    (behind : Input) : Prop where
  next : j.next phase = (t, behind)
  valid : t.kind ≠ .error
  ends : ends t.kind = true

theorem Input.Streams.follows {j k : Input} {t : Token} {ts : List Token}
    {ends : Token.Kind → Bool} (h : j.Streams (t :: ts) k) (valid : t.kind ≠ .error)
    (allowed : ends t.kind = true) (phase : Phase) :
    ∃ behind, j.Follows phase ends t behind ∧ behind.Seeded none ts k := by
  obtain ⟨behind, read, rest⟩ := h
  exact ⟨behind, ⟨read phase, valid, allowed⟩, rest⟩

theorem Input.Follows.mono {j behind : Input} {phase : Phase} {ends more : Token.Kind → Bool}
    {t : Token} (h : j.Follows phase ends t behind)
    (weaker : ∀ {kind}, ends kind = true → more kind = true) : j.Follows phase more t behind :=
  ⟨h.next, h.valid, weaker h.ends⟩

/-! ### Tiers -/

namespace Frame

variable {host : Host H} {flags : Flags} {nl : Bool} {s : Session} {seed : Option Token}
  {ev : Evaluation String} {t : Token} {j behind : Input}

theorem yields_expr
    (h : Leads host "expr" (lookahead nl) flags.executes (stepExpr flags nl { stage := .term seed })
      s.enter ev (closeExpr flags nl) j)
    (follows : j.Follows (lookahead nl) Token.Kind.endsExpr t behind) :
    Yields host (newExpr flags nl seed) .exprDone s ev t (behind.unread t) :=
  Leads.yields h follows.next fun v _ place => closeExpr_ends place follows.valid follows.ends v

theorem yields_rel
    (h : Leads host "relexp" (lookahead nl) flags.executes (stepRel flags nl (.start seed))
      s.enter ev (closeRel flags nl) j)
    (follows : j.Follows (lookahead nl) Token.Kind.endsRel t behind) :
    Yields host (newRel flags nl seed) .relExpDone s ev t (behind.unread t) :=
  Leads.yields h follows.next fun v _ place => closeRel_ends place follows.valid follows.ends v

theorem yields_cond
    (h : Leads host "cond" (lookahead nl) flags.executes (stepCond flags nl (.start seed))
      s.enter ev (closeCond flags nl) j)
    (follows : j.Follows (lookahead nl) Token.Kind.endsCond t behind) :
    Yields host (newCond flags nl seed) .condDone s ev t (behind.unread t) :=
  Leads.yields h follows.next fun v _ place => closeCond_ends place follows.valid follows.ends v

end Frame

/-! ### Trees -/

/-- A kind that passes a test is none that does not. -/
theorem Token.Kind.ne_of_test {test : Token.Kind → Bool} {kind other : Token.Kind}
    (h : test kind = true) (fails : test other = false) : kind ≠ other := by
  rintro rfl
  rw [h] at fails
  cases fails

def Token.Kind.startsExpr : Token.Kind → Bool
  | .identifier | .function | .literal | .lparen | .operator .minus | .logical .not => true
  | _ => false

namespace Syntax

open Scriptlet.Frame Act

def Starts (ls : List Lexeme) : Prop := ∃ l rest, ls = l :: rest ∧ l.token.kind.startsExpr = true

theorem Starts.ne_nil {ls : List Lexeme} (h : Starts ls) : ls ≠ [] := by
  obtain ⟨l, rest, rfl, _⟩ := h
  simp

theorem Starts.append {ls : List Lexeme} (h : Starts ls) (more : List Lexeme) :
    Starts (ls ++ more) := by
  obtain ⟨l, rest, rfl, starts⟩ := h
  exact ⟨l, rest ++ more, rfl, starts⟩

/-- The first token can be read and put back. -/
theorem Starts.peek {ls : List Lexeme} {i k : Input} (h : Starts ls)
    (read : i.Streams (ls.map Lexeme.token) k) :
    ∃ t behind, (∀ phase, i.next phase = (t, behind)) ∧ t.kind.startsExpr = true ∧
      t.kind ≠ .error ∧ (behind.unread t).Streams (ls.map Lexeme.token) k := by
  obtain ⟨l, rest, rfl, starts⟩ := h
  obtain ⟨behind, first, later⟩ := read
  exact ⟨l.token, behind, first, starts, l.token_valid, behind,
    Input.next_unread_next (first .expr), later⟩

theorem Term.starts (t : Term) : Starts t.lexemes := by
  cases t with
  | unary op t => cases op <;> exact ⟨_, _, rfl, rfl⟩
  | _ => exact ⟨_, _, rfl, rfl⟩

theorem Arith.starts (a : Arith) : Starts a.lexemes := by
  cases a with
  | operand t => exact t.starts
  | apply left _ _ => exact left.starts.append _

theorem Rel.starts (r : Rel) : Starts r.lexemes := by
  cases r with
  | operand a => exact a.starts
  | compare left _ _ => exact left.starts.append _

theorem Cond.starts (c : Cond) : Starts c.lexemes := by
  cases c with
  | operand r => exact r.starts
  | join left _ _ => exact left.starts.append _

variable {natives : Natives} {observe : Event → H → H}

theorem Connective.ends (op : Connective) : op.lexeme.token.kind.endsRel = true := rfl

theorem Comparison.ends (op : Comparison) : op.lexeme.token.kind.endsExpr = true := by
  obtain ⟨op, relational⟩ := op
  cases op <;> cases relational <;> rfl

def Args.from (args : Args) (again : Bool) : List Lexeme :=
  if again then args.others else args.lexemes

def seekArgument (flags : Flags) (again : Bool) : Act Move :=
  if again then afterArgument flags else stepArguments flags none

theorem seekArgument_finds (flags : Flags) (again : Bool) {s : Session} {first : Cond}
    {rest : Args} {mid : Input}
    (read : s.input.Streams (((Args.cons first rest).from again).map Lexeme.token) mid) :
    ∃ i t, (seekArgument flags again).Gives s
        (.push ⟨flags, .arguments⟩ (newCond flags false none)) { s with input := i, token := t } ∧
      i.Streams (first.lexemes.map Lexeme.token ++ rest.others.map Lexeme.token) mid := by
  cases again with
  | true =>
    simp only [Args.from, if_true, Args.others, List.map_cons, List.map_append] at read
    obtain ⟨i, comma, within⟩ := read
    exact ⟨i, _, (gives_nextToken (comma _) (Lexeme.token_valid _)).bind (gives_pure _ _), within⟩
  | false =>
    simp only [Args.from, Bool.false_eq_true, if_false, Args.lexemes, List.map_append] at read
    obtain ⟨l, ls, heq, starts⟩ := first.starts
    simp only [heq, List.map_cons, List.cons_append] at read ⊢
    obtain ⟨i, opens, within⟩ := read
    refine ⟨i.unread l.token, l.token, ?_, i, Input.next_unread_next (opens .expr), within⟩
    refine (gives_nextToken (opens _) (Lexeme.token_valid _)).bind ?_
    have other : l.token.kind ≠ .rparen := by
      intro close
      simp [close, Token.Kind.startsExpr] at starts
    simp only [other, if_false]
    exact (gives_update _ _).bind (gives_pure _ _)

/-- What follows an argument ends it, and is read the same in any phase. -/
theorem Args.ends_others {args : Args} {i mid last : Input}
    (read : i.Streams (args.others.map Lexeme.token) mid)
    (close : ∀ phase, mid.next phase = (.symbol .rparen, last)) :
    ∃ t behind, (∀ phase, i.next phase = (t, behind)) ∧ t.kind ≠ .error ∧
      t.kind.endsCond = true := by
  cases args with
  | nil => exact ⟨_, last, fun phase => (read phase).trans (close phase), by simp [Token.symbol], rfl⟩
  | cons first rest =>
    obtain ⟨behind, comma, _⟩ := read
    exact ⟨_, behind, comma, Lexeme.token_valid _, rfl⟩

mutual

theorem Cond.leads (flags : Flags) (nl : Bool) {s : Session} {seed : Option Token}
    {j behind : Input} {t : Token} : (c : Cond) →
    (read : s.input.Seeded seed (c.lexemes.map Lexeme.token) j) →
    (follows : j.Follows (lookahead nl) Token.Kind.endsRel t behind) →
    (room : s.depth + 2 + c.extra ≤ s.limits.maxDepth) →
    Leads (.ofNatives natives observe) "cond" (lookahead nl) flags.executes
      (stepCond flags nl (.start seed)) s ((c.eval (s.env natives)).when flags.executes)
      (closeCond flags nl) j
  | .operand r, read, follows, room => by
    have deeper : s.enter.depth + 1 + r.extra ≤ s.limits.maxDepth := by
      simp only [Cond.extra] at room
      simp only
      omega
    have operand := r.leads flags nl (s := s.enter) read
      (follows.mono Token.Kind.endsExpr_of_endsRel) deeper
    exact stepCond_leads (by omega) follows.next (yields_rel operand follows)
  | .join left op right, read, follows, room => by
    simp only [Cond.extra] at room
    simp only [Cond.lexemes, List.map_append, List.map_cons] at read
    obtain ⟨mid, before, after⟩ := read.split (by simpa using left.starts.ne_nil)
    obtain ⟨i, between, later⟩ := after.follows (Lexeme.token_valid _) op.ends (lookahead nl)
    have first := left.leads flags nl before between (by omega)
    rw [Cond.eval, Evaluation.when_bind]
    refine first.bind fun value s' moved place => ?_
    rw [← moved.env natives]
    have depth := moved.depth
    have limits := moved.limits
    refine closeCond_joins op (place.trans between.next) (by rw [limits]; omega) follows.next ?_
    intro flags'
    have deeper : s'.enter.depth + 1 + right.extra ≤ s'.limits.maxDepth := by
      rw [limits]
      simp only
      omega
    have operand := right.leads flags' nl (s := { s'.enter with input := i, token := op.lexeme.token })
      later (follows.mono Token.Kind.endsExpr_of_endsRel) deeper
    exact yields_rel operand follows

theorem Rel.leads (flags : Flags) (nl : Bool) {s : Session} {seed : Option Token}
    {j behind : Input} {t : Token} : (r : Rel) →
    (read : s.input.Seeded seed (r.lexemes.map Lexeme.token) j) →
    (follows : j.Follows (lookahead nl) Token.Kind.endsExpr t behind) →
    (room : s.depth + 1 + r.extra ≤ s.limits.maxDepth) →
    Leads (.ofNatives natives observe) "relexp" (lookahead nl) flags.executes
      (stepRel flags nl (.start seed)) s ((r.eval (s.env natives)).when flags.executes)
      (closeRel flags nl) j
  | .operand a, read, follows, room => by
    have deeper : s.enter.depth + a.extra ≤ s.limits.maxDepth := by
      simp only [Rel.extra] at room
      simp only
      omega
    have operand := a.leads flags nl (s := s.enter) read deeper
    exact stepRel_leads (by omega) follows.next (yields_expr operand follows)
  | .compare left op right, read, follows, room => by
    simp only [Rel.extra] at room
    simp only [Rel.lexemes, List.map_append, List.map_cons] at read
    obtain ⟨mid, before, after⟩ := read.split (by simpa using left.starts.ne_nil)
    obtain ⟨i, between, later⟩ := after.follows (Lexeme.token_valid _) op.ends (lookahead nl)
    have first := left.leads flags nl before between (by omega)
    rw [Rel.eval, Evaluation.when_bind]
    refine first.bind fun value s' moved place => ?_
    rw [← moved.env natives]
    have depth := moved.depth
    have limits := moved.limits
    refine closeRel_compares op (place.trans between.next) (by rw [limits]; omega) follows.next ?_
    have deeper : s'.enter.depth + right.extra ≤ s'.limits.maxDepth := by
      rw [limits]
      simp only
      omega
    have operand := right.leads flags nl (s := { s'.enter with input := i, token := op.lexeme.token })
      later deeper
    exact yields_expr operand follows

theorem Arith.leads (flags : Flags) (nl : Bool) {s : Session} {seed : Option Token}
    {j : Input} : (a : Arith) →
    (read : s.input.Seeded seed (a.lexemes.map Lexeme.token) j) →
    (room : s.depth + a.extra ≤ s.limits.maxDepth) →
    Leads (.ofNatives natives observe) "expr" (lookahead nl) flags.executes
      (stepExpr flags nl { stage := .term seed }) s
      ((a.eval (s.env natives)).when flags.executes) (closeExpr flags nl) j
  | .operand t, read, room => by
    refine stepExpr_leads rfl read t.starts.ne_nil fun first rest s' heq moved others => ?_
    have depth := moved.depth
    have limits := moved.limits
    have term := t.leads flags nl { stage := .term seed } heq others
      (by simp only [Arith.extra] at room; rw [limits]; omega)
    have value := term.bind fun value s'' _ place => closeTerm_leads place _ value
    rw [moved.env natives] at value
    have alone : (t.eval (s.env natives) >>= fun value =>
        .ofExcept (combine { stage := .term seed } value)) = t.eval (s.env natives) :=
      Evaluation.bind_pure _
    rwa [← Evaluation.when_bind, alone] at value
  | .apply left op right, read, room => by
    simp only [Arith.extra] at room
    simp only [Arith.lexemes, List.map_append, List.map_cons] at read
    obtain ⟨mid, before, after⟩ := read.split (by simpa using left.starts.ne_nil)
    obtain ⟨i, between, later⟩ := after
    have later : i.Seeded none _ j := later
    have first := left.leads flags nl before (by omega)
    rw [Arith.eval, Evaluation.when_bind]
    refine first.bind fun value s₁ moved place => ?_
    refine closeExpr_applies op (place.trans (between _)) ?_
    refine stepExpr_leads rfl later right.starts.ne_nil fun first rest s₂ heq moved' others => ?_
    have onward := moved.trans ((Session.Moved.read s₁ i op.lexeme.token).trans moved')
    have depth := onward.depth
    have limits := onward.limits
    have term := right.leads flags nl { stage := .term none, left := some (value, op.1) } heq others
      (by rw [limits]; omega)
    have joined := term.bind fun value' s₃ _ place => closeTerm_leads place _ value'
    rw [onward.env natives] at joined
    rw [Evaluation.when_bind]
    exact joined

theorem Term.leads (flags : Flags) (nl : Bool) (terms : Terms) {s : Session} {first : Token}
    {rest : List Token} {j : Input} : (t : Term) →
    (heq : t.lexemes.map Lexeme.token = first :: rest) →
    (read : s.input.Streams rest j) →
    (room : s.depth + t.extra ≤ s.limits.maxDepth) →
    Leads (.ofNatives natives observe) "expr" (lookahead nl) flags.executes
      (openTerm flags nl terms first) s ((t.eval (s.env natives)).when flags.executes)
      (closeTerm flags nl terms) j
  | .literal l, heq, read, room => by
    obtain ⟨rfl, rfl⟩ : _ ∧ _ := by simpa [Term.lexemes] using heq
    exact literal_leads (read _) terms l.value
  | .variable n, heq, read, room => by
    obtain ⟨rfl, rfl⟩ : _ ∧ _ := by simpa [Term.lexemes] using heq
    exact variable_leads (read _) natives terms n.text
  | .unary op t, heq, read, room => by
    simp only [Term.lexemes, List.map_cons, List.cons.injEq] at heq
    obtain ⟨rfl, rfl⟩ := heq
    have read : s.input.Seeded none _ j := read
    rw [openTerm_unary, Term.eval, Evaluation.when_bind]
    refine .stay rfl ?_
    show Leads _ "expr" _ _
      (stepExpr flags nl { terms with stage := .term none, unary := op :: terms.unary }) _ _ _ _
    refine stepExpr_leads rfl read t.starts.ne_nil fun first rest s' heq moved others => ?_
    have depth := moved.depth
    have limits := moved.limits
    have term := t.leads flags nl { terms with stage := .term none, unary := op :: terms.unary } heq
      others (by simp only [Term.extra] at room; rw [limits]; omega)
    rw [moved.env natives] at term
    exact term.bind fun value s'' _ place => closeTerm_unary place op terms _ value
  | .call name args, heq, read, room => by
    simp only [Term.extra] at room
    simp only [Term.lexemes, List.map_cons, List.map_append, List.cons.injEq] at heq
    obtain ⟨rfl, rfl⟩ := heq
    obtain ⟨i, opens, within⟩ := read
    obtain ⟨mid, values, last, closes, place⟩ := within.split
    refine call_leads (by omega) (place _) (call_yields (opens _) (by omega) fun call => ?_)
    have deeper : s.depth + 2 + args.extra ≤ s.limits.maxDepth := by omega
    exact args.collects flags false values closes deeper
  | .paren c, heq, read, room => by
    simp only [Term.extra] at room
    simp only [Term.lexemes, List.map_cons, List.map_append, List.cons.injEq] at heq
    obtain ⟨rfl, rfl⟩ := heq
    obtain ⟨mid, inside, behind, closes, place⟩ := read.split
    have inside : s.input.Seeded none _ mid := inside
    have deeper : s.enter.depth + 2 + c.extra ≤ s.limits.maxDepth := by
      simp only
      omega
    have follows : mid.Follows (lookahead false) Token.Kind.endsCond (sym .rparen).token behind :=
      ⟨closes _, Lexeme.token_valid _, rfl⟩
    have inner := c.leads flags false (s := s.enter) inside
      (follows.mono Token.Kind.endsRel_of_endsCond) deeper
    exact paren_leads (by omega) rfl (place _) (Input.next_unread_next (closes .expr) _)
      (yields_cond inner follows)

theorem Args.collects (flags : Flags) (again : Bool) {s : Session} {mid last : Input} :
    (args : Args) →
    (read : s.input.Streams ((args.from again).map Lexeme.token) mid) →
    (close : ∀ phase, mid.next phase = (.symbol .rparen, last)) →
    (room : s.depth + args.extra ≤ s.limits.maxDepth) →
    Collects (.ofNatives natives observe) flags.executes (seekArgument flags again) s
      ((args.eval (s.env natives)).when flags.executes) last
  | .nil, read, close, room => by
    cases again with
    | false => exact collects_nil ((read _).trans (close _)) rfl
    | true => exact collects_nil ((read _).trans (close _)) rfl
  | .cons first rest, read, close, room => by
    simp only [Args.extra] at room
    obtain ⟨i, t', gives, within⟩ := seekArgument_finds flags again read
    obtain ⟨mid₁, argument, others⟩ := within.split
    obtain ⟨t, behind, next, valid, ends⟩ := Args.ends_others others close
    have follows : mid₁.Follows (lookahead false) Token.Kind.endsCond t behind :=
      ⟨next _, valid, ends⟩
    have argument : i.Seeded none _ mid₁ := argument
    have deeper : s.enter.depth + 2 + first.extra ≤ s.limits.maxDepth := by
      simp only
      omega
    have inner := first.leads flags false (s := { s.enter with input := i, token := t' }) argument
      (follows.mono Token.Kind.endsRel_of_endsCond) deeper
    refine .moves gives (.read s i t') ?_
    refine collects_cons (by simp only; omega) (yields_cond inner follows) fun call result => ?_
    have again : (behind.unread t).Streams [] mid₁ := fun phase =>
      (Input.next_unread_next (next .expr) phase).trans (next phase).symm
    exact rest.collects flags true (again.append others) close (by simp only; omega)

end

theorem Cond.yields (c : Cond) (flags : Flags) (nl : Bool) {s : Session} {seed : Option Token}
    {j behind : Input} {t : Token} (read : s.input.Seeded seed (c.lexemes.map Lexeme.token) j)
    (follows : j.Follows (lookahead nl) Token.Kind.endsCond t behind)
    (room : s.depth + c.depth ≤ s.limits.maxDepth) :
    Yields (.ofNatives natives observe) (newCond flags nl seed) .condDone s
      ((c.eval (s.env natives)).when flags.executes) t (behind.unread t) := by
  have deeper : s.enter.depth + 2 + c.extra ≤ s.limits.maxDepth := by
    simp only [Cond.depth] at room
    simp only
    omega
  have tiers := follows.mono Token.Kind.endsRel_of_endsCond
  exact yields_cond (c.leads flags nl (s := s.enter) read tiers deeper) follows

end Syntax

namespace Session

open Machine Lexer Utf8 Syntax

variable {natives : Natives} {observe : Event → H → H}

/-- A run of the frame that a parse starts with is a parse, given steps enough. -/
theorem parse_of_runs {s s' : Session} {start : Phase} {flags : Flags} {frame : Frame} {host : Host H}
    {r : Except Fault.Cause Phase} {calls : Calls} (room : s.depth < s.limits.maxDepth)
    (hstart : Frame.start flags start = .ok frame)
    (run : Runs host frame.name (frame.step none) s.enter r s' calls) (state : H) :
    ∃ n, ∀ fuel, n ≤ fuel → ∃ fin, s.parse host fuel state start flags = some fin ∧
      (s.parseCalls host fuel state start flags).map Invocation.brief = calls ∧
      fin.answer.mapError (·.cause) = r ∧ fin.session = { s' with depth := s.depth } := by
  obtain ⟨r', state', cs, comp, hr, hcs⟩ := run [] state
  obtain ⟨n, enough⟩ := parse_of_completes room hstart comp
  refine ⟨n, fun fuel le => ⟨_, (enough fuel le).1, ?_, ?_, rfl⟩⟩
  · rw [(enough fuel le).2, hcs]
  · rw [← hr]
    cases r' with
    | ok phase => rfl
    | error fault => exact congrArg Except.error (fault.cause_orLine s'.line)

theorem parse_cond_evaluates (natives : Natives) (observe : Event → H → H) (state : H)
    (s : Session) (e : Cond) {p p' : Position} {follow rest : List UInt8} {t : Token}
    (next : Lexer.next false 0 (p.pass (encode (Lexeme.render e.lexemes ++ " "))) follow =
      (t, p', rest))
    (valid : t.kind ≠ .error) (ends : t.kind.endsCond = true) (closed : t.kind ≠ .lparen)
    (room : s.depth + e.depth ≤ s.limits.maxDepth) :
    let start := { s with
      input := { rest := encode (Lexeme.render e.lexemes ++ " ") ++ follow, position := p } }
    let host := Host.ofNatives natives observe
    ∃ n, ∀ fuel, n ≤ fuel → ∃ fin, start.parse host fuel state .cond .execute = some fin ∧
      (start.parseCalls host fuel state .cond .execute).map Invocation.brief =
        (e.eval (s.env natives)).calls ∧
      match (e.eval (s.env natives)).outcome with
      | .ok value => fin.answer = .ok .condDone ∧ fin.session =
          { s with
            input := { rest, position := p', putback := some t }
            token := t
            result := value }
      | .error cause => fin.answer.mapError (·.cause) = .error cause ∧
          ∃ input token result call, fin.session = { s with input, token, result, call } := by
  intro start host
  have spaced : Lexeme.Spaced (opensNext follow) e.lexemes := by
    rw [opensNext_of_next next closed]
    exact e.spaced_alone
  have read : start.input.Seeded none _ _ := Lexeme.streams_render_blank p spaced
  have follows : Input.Follows ⟨follow, p.pass (encode (Lexeme.render e.lexemes ++ " ")), none⟩
      (lookahead false) Token.Kind.endsCond t ⟨rest, p', none⟩ :=
    ⟨congrArg (fun r => (r.1, Input.mk r.2.2 r.2.1 none)) next, valid, ends⟩
  have yields : Yields host (Frame.newCond .execute false none) .condDone start
      (e.eval (s.env natives)) t _ :=
    e.yields .execute false read follows room
  have begins : Frame.start .execute .cond = .ok (Frame.newCond .execute false none) := rfl
  have first : start.depth < start.limits.maxDepth := by
    simp only [Cond.depth] at room
    simp only [start]
    omega
  cases hev : (e.eval (s.env natives)).outcome with
  | ok value =>
    obtain ⟨n, enough⟩ := parse_of_runs first begins (yields.ok hev) state
    refine ⟨n, fun fuel le => ?_⟩
    obtain ⟨fin, parsed, calls, answer, session⟩ := enough fuel le
    refine ⟨fin, parsed, calls, ?_, session⟩
    cases hfin : fin.answer with
    | ok phase =>
      rw [hfin] at answer
      cases answer
      rfl
    | error fault =>
      rw [hfin] at answer
      cases answer
  | error cause =>
    obtain ⟨s', ⟨input, token, result, call, depth, rfl⟩, run⟩ := yields.error hev
    obtain ⟨n, enough⟩ := parse_of_runs first begins run state
    refine ⟨n, fun fuel le => ?_⟩
    obtain ⟨fin, parsed, calls, answer, session⟩ := enough fuel le
    exact ⟨fin, parsed, calls, answer, input, token, result, call, session⟩

theorem parse_cond_evaluates_call :
    let s : Session :=
      { id := ⟨0, 1⟩, functions := Table.insert {} "f" ⟨"k", false⟩,
        scopes := ScopeStack.setGlobal {} "x" "a" }
    let natives : Natives := fun _ args => .ok (String.join args)
    let x : Arith := .operand (.variable ⟨"x", rfl⟩)
    let call : Arith := .operand (.unary .not (.call ⟨"f", rfl⟩
      (.cons (.operand (.operand x)) (.cons (.operand (.operand x)) .nil))))
    let e : Cond :=
      .join (.operand (.compare (.operand x) ⟨.eq, rfl⟩ x)) ⟨.and, by decide⟩ (.operand call)
    let start := { s with
      input := { rest := encode (Lexeme.render e.lexemes ++ " ") ++ encode "; x" } }
    let host := Host.ofNatives natives fun _ (u : Unit) => u
    start.input = .ofScript "x == x && ! f ( x , x ) ; x" ∧
      ∃ n, ∀ fuel, n ≤ fuel → ∃ fin, start.parse host fuel () .cond .execute = some fin ∧
        (start.parseCalls host fuel () .cond .execute).map Invocation.brief =
          [("k", ["a", "a"])] ∧
        fin.answer = .ok .condDone ∧ fin.session.result = "0" := by
  intro s natives x call e start host
  have value : (e.eval (s.env natives)).outcome.toOption = some "0" ∧
      (e.eval (s.env natives)).calls = [("k", ["a", "a"])] := by
    decide +kernel
  have next : Lexer.next false 0 (Position.pass {} (encode (Lexeme.render e.lexemes ++ " ")))
      (encode "; x") = (.symbol .semicolon, _, encode " x") := rfl
  obtain ⟨n, enough⟩ := parse_cond_evaluates natives (fun _ (u : Unit) => u) () s e next
    (by decide) rfl (by decide) (by decide)
  refine ⟨by decide +kernel, n, fun fuel le => ?_⟩
  obtain ⟨fin, parsed, calls, outcome⟩ := enough fuel le
  cases hev : (e.eval (s.env natives)).outcome with
  | error cause =>
    rw [hev] at value
    cases value.1
  | ok result =>
    rw [hev] at value outcome
    obtain ⟨answer, session⟩ := outcome
    refine ⟨fin, parsed, calls.trans value.2, answer, ?_⟩
    rw [session]
    exact Option.some.inj value.1

end Session

end Scriptlet
