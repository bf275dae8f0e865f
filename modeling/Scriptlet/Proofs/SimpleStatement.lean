import Scriptlet.Proofs.Performance

/-!
Simple statements, declarations and `return` have the effects that their trees say. Each is read up
to the token behind it, which is put back.
-/

namespace Scriptlet

variable {H : Type}

def Token.Kind.closes : Token.Kind → Bool
  | .semicolon | .rparen | .comma => true
  | _ => false

def Token.Kind.isQuiet : Token.Kind → Bool
  | .assign | .bump _ => false
  | _ => true

structure Input.Closes (j : Input) (t : Token) (behind : Input) : Prop where
  next : ∀ phase, j.next phase = (t, behind)
  kind : t.kind.closes = true

namespace Input.Closes

variable {j behind : Input} {t : Token}

theorem valid (h : j.Closes t behind) : t.kind ≠ .error := Token.Kind.ne_of_test h.kind rfl

theorem follows (h : j.Closes t behind) (phase : Phase) :
    j.Follows phase Token.Kind.endsCond t behind := by
  refine ⟨h.next phase, h.valid, ?_⟩
  have closes := h.kind
  cases kind : t.kind with
  | semicolon | rparen | comma => rfl
  | _ =>
    rw [kind] at closes
    cases closes

theorem quiet (h : j.Closes t behind) : t.kind.isQuiet = true := by
  have closes := h.kind
  cases kind : t.kind with
  | semicolon | rparen | comma => rfl
  | _ =>
    rw [kind] at closes
    cases closes

/-- A token that was put back is read again. -/
theorem again (h : j.Closes t behind) : (behind.unread t).Streams [] j :=
  fun phase => (next_unread_next (h.next .expr) phase).trans (h.next phase).symm

end Input.Closes

theorem Input.Streams.closes {j k : Input} {t : Token} {ts : List Token}
    (h : j.Streams (t :: ts) k) (kind : t.kind.closes = true) :
    ∃ behind, j.Closes t behind ∧ behind.Streams ts k := by
  obtain ⟨behind, read, rest⟩ := h
  exact ⟨behind, ⟨read, kind⟩, rest⟩

namespace Syntax

/-! ### Expressions as statements -/

def Quiet (ls : List Lexeme) : Prop := ∀ l ∈ ls, l.token.kind.isQuiet = true

theorem quiet_nil : Quiet [] := by simp [Quiet]

theorem Quiet.cons {l : Lexeme} {ls : List Lexeme} (first : l.token.kind.isQuiet = true)
    (h : Quiet ls) : Quiet (l :: ls) := by
  intro l' hl'
  rcases List.mem_cons.mp hl' with rfl | hl'
  · exact first
  · exact h l' hl'

theorem Quiet.append {ls more : List Lexeme} (h : Quiet ls) (k : Quiet more) :
    Quiet (ls ++ more) := by
  intro l hl
  rcases List.mem_append.mp hl with hl | hl
  · exact h l hl
  · exact k l hl

mutual

theorem Cond.quiet : (c : Cond) → Quiet c.lexemes
  | .operand r => r.quiet
  | .join left _ right => left.quiet.append (right.quiet.cons rfl)

theorem Rel.quiet : (r : Rel) → Quiet r.lexemes
  | .operand a => a.quiet
  | .compare left _ right => left.quiet.append (right.quiet.cons rfl)

theorem Arith.quiet : (a : Arith) → Quiet a.lexemes
  | .operand t => t.quiet
  | .apply left _ right => left.quiet.append (right.quiet.cons rfl)

theorem Term.quiet : (t : Term) → Quiet t.lexemes
  | .unary op t => t.quiet.cons (by cases op <;> rfl)
  | .literal _ => quiet_nil.cons rfl
  | .variable _ => quiet_nil.cons rfl
  | .call _ args => ((args.quiet.append (quiet_nil.cons rfl)).cons rfl).cons rfl
  | .paren c => (c.quiet.append (quiet_nil.cons rfl)).cons rfl

theorem Args.quiet : (args : Args) → Quiet args.lexemes
  | .nil => quiet_nil
  | .cons first rest => first.quiet.append rest.quiet_others

theorem Args.quiet_others : (args : Args) → Quiet args.others
  | .nil => quiet_nil
  | .cons first rest => (first.quiet.append rest.quiet_others).cons rfl

end

open Act Scriptlet.Frame

variable {flags : Flags} {nl : Bool} {s : Session} {j behind : Input} {t : Token}

/-- A statement that starts as an expression pushes one, which is told its first token if that is a
name. -/
theorem stepSimple_expr (c : Cond) (read : s.input.Streams (c.lexemes.map Lexeme.token) j)
    (next : ∀ phase, j.next phase = (t, behind)) (valid : t.kind ≠ .error)
    (silent : t.kind.isQuiet = true) :
    ∃ seed i t', (stepSimple flags nl .start).Gives s
        (.push ⟨flags, .simple nl .valued⟩ (newCond flags nl seed))
        { s with input := i, token := t' } ∧
      i.Seeded seed (c.lexemes.map Lexeme.token) j := by
  obtain ⟨l, ls, heq, starts⟩ := c.starts
  have quiet := c.quiet
  simp only [heq, List.map_cons] at read quiet ⊢
  obtain ⟨i, first, later⟩ := read
  by_cases name : l.token.kind = .identifier
  · obtain ⟨b, i', next, quiet, valid⟩ : ∃ b i', (∀ phase, i.next phase = (b, i')) ∧
        b.kind.isQuiet = true ∧ b.kind ≠ .error := by
      cases ls with
      | nil => exact ⟨t, behind, fun phase => (later phase).trans (next phase), silent, valid⟩
      | cons l' ls' =>
        obtain ⟨i', read, _⟩ := later
        exact ⟨l'.token, i', read, quiet l' (by simp), l'.token_valid⟩
    have back : (i'.unread b).Streams [] i := fun phase =>
      (Input.next_unread_next (next .expr) phase).trans (next phase).symm
    refine ⟨some l.token, i'.unread b, b, ?_, _, rfl, back.append later⟩
    refine (gives_nextToken (first _) l.token_valid).bind ?_
    rw [if_neg (by simp [name])]
    refine (gives_nextToken (next _) valid).bind ?_
    split
    · rename_i kind
      exact absurd kind (Token.Kind.ne_of_test quiet rfl)
    · rename_i kind
      exact absurd kind (Token.Kind.ne_of_test quiet rfl)
    · exact (gives_update _ _).bind (gives_pure _ _)
  · have back : (i.unread l.token).Streams (l.token :: ls.map Lexeme.token) j :=
      ⟨i, Input.next_unread_next (first .expr), later⟩
    refine ⟨none, i.unread l.token, l.token, ?_, back⟩
    refine (gives_nextToken (first _) l.token_valid).bind ?_
    rw [if_pos name]
    exact (gives_update _ _).bind (gives_pure _ _)

theorem openStatement_expr (flags : Flags) (starts : t.kind.startsExpr = true) :
    openStatement flags t = Act.unread t >>= fun _ =>
      pure (.push ⟨flags, .statement (.forward true)⟩ (newSimple flags true)) := by
  unfold Token.Kind.startsExpr at starts
  split at starts
  case h_7 => cases starts
  all_goals
    rename_i kind
    simp only [openStatement, kind]
    rfl

section Performs

variable {lib : Library} {observe : Event → H → H} {e : Effect Unit}

theorem stepSimple_assigning (flags : Flags) (nl : Bool) (name : String) :
    stepSimple flags nl (.assigning name) =
      (if flags.executes then update fun s => s.assign name s.result else pure ()) >>=
        fun _ => pure (.done .exprDone) := by
  by_cases exe : flags.executes
  · simp only [stepSimple, exe, if_true]
  · simp only [stepSimple, exe]
    rfl

theorem gives_bumpVariable {op : Operator} {name v : String} (h : bumped s.scopes name op = .ok v) :
    (bumpVariable op name).Gives s () { s.assign name v with result := v } := by
  unfold bumped at h
  split at h
  · rename_i bound
    exact (gives_readVariable bound).bind ((gives_ofExcept h s).bind (gives_update _ s))
  · cases h

theorem fails_bumpVariable {op : Operator} {name : String} {cause : Fault.Cause}
    (h : bumped s.scopes name op = .error cause) : (bumpVariable op name).Fails s cause s := by
  unfold bumped at h
  split at h
  · rename_i bound
    exact (gives_readVariable bound).fails_bind (fails_ofExcept h s).bind
  · rename_i unbound
    obtain rfl := Except.error.inj h
    exact (fails_readVariable unbound).bind

theorem performs_bump {name : Name} {op : Bump} (back : s.input.Streams [] j)
    (meaning : ((Simple.bump name op).exec lib).when flags.executes s.store e) :
    Performs (.ofNatives lib.natives observe) "simple"
      (if flags.executes then bumpVariable op.1 name.text >>= fun _ => pure (.done .exprDone)
        else pure (.done .exprDone)) s e (fun _ => .exprDone) j := by
  cases exe : flags.executes with
  | false =>
    rw [exe] at meaning
    obtain rfl : e = ⟨.ok (), s.store, []⟩ := meaning
    exact .finish () rfl fun _ => back
  | true =>
    rw [exe] at meaning
    obtain ⟨_, rfl, total⟩ := meaning
    simp only [Effect.Then] at total
    cases value : bumped s.store.scopes name.text op.1 with
    | error cause =>
      rw [value] at total
      obtain rfl := total
      exact .fails (fails_bumpVariable value).bind (Session.Spoiled.refl s).broken rfl rfl
    | ok v =>
      rw [value] at total
      obtain ⟨_, rfl, rfl⟩ := total
      have turned : s.Turned ⟨s.scopes.assign name.text v, v⟩
          { s.assign name.text v with result := v } :=
        ⟨s.input, s.token, rfl, ScopeStack.serials_assign _ _ _⟩
      exact .gives (gives_bumpVariable value) turned (.finish () rfl fun _ => back)

theorem Simple.performs (x : Simple) (fits : s.Fits lib x.depth)
    (read : s.input.Streams (x.lexemes.map Lexeme.token) j) (closes : j.Closes t behind)
    (meaning : (x.exec lib).when flags.executes s.store e) :
    Performs (.ofNatives lib.natives observe) "simple" (stepSimple flags nl .start) s.enter e
      (fun _ => .exprDone) j := by
  cases x with
  | expr value =>
    obtain ⟨seed, i, t', gives, read⟩ :=
      stepSimple_expr (s := s.enter) value read closes.next closes.valid closes.quiet
    rw [Simple.exec, Meaning.when_bind] at meaning
    refine .moves gives (.read _ _ _) ?_
    refine .cond value rfl ?_ read (closes.follows _) meaning fun v e₂ s₁ hs₁ later => ?_
    · exact fits.enter.read
    · rw [Meaning.when_default] at later
      obtain rfl := later
      exact .finish () rfl fun _ => hs₁ ▸ closes.again
  | assign name value =>
    obtain ⟨i, first, i', equals, read⟩ := read
    have read : i'.Seeded none _ j := read
    rw [Simple.exec, Meaning.when_bind] at meaning
    refine .gives (gives_nextToken (first _) (Lexeme.token_valid _)) (.read _ _ _) ?_
    refine .gives (gives_nextToken (equals _) (Lexeme.token_valid _)) (.read _ _ _) ?_
    refine .cond value rfl ?_ read (closes.follows _) meaning fun v e₂ s₁ hs₁ later => ?_
    · exact fits.enter.read
    · show Performs _ "simple" (stepSimple flags nl (.assigning name.text)) s₁ e₂ _ j
      rw [stepSimple_assigning]
      refine .change (hs₁ ▸ closes.again) (fun exe => ?_) (ScopeStack.serials_assign _ _ _) later
      have result : s₁.result = v := by
        rw [hs₁]
        exact if_pos exe
      rw [← result]
      exact gives_update _ _
  | bump name op =>
    obtain ⟨i, first, i', marks, back⟩ := read
    refine .gives (gives_nextToken (first _) (Lexeme.token_valid _)) (.read _ _ _) ?_
    refine .gives (gives_nextToken (marks _) (Lexeme.token_valid _)) (.read _ _ _) ?_
    exact performs_bump back meaning

theorem Simple.starts (x : Simple) : Starts x.lexemes := by
  cases x with
  | expr value => exact value.starts
  | _ => exact ⟨_, _, rfl, rfl⟩

/-! ### Declarations -/

def bindLocal (flags : Flags) (name value : String) : Act Move := do
  if flags.executes then update (·.setLocal name value)
  return .done .decDone

theorem performs_bindLocal {name value : String} (back : s.input.Streams [] j)
    (meaning : (Meaning.change fun σ => { σ with scopes := σ.scopes.setLocal name value }).when
      flags.executes s.store e) :
    Performs (.ofNatives lib.natives observe) "dec" (bindLocal flags name value) s e
      (fun _ => .decDone) j := by
  have acts : bindLocal flags name value =
      (if flags.executes then update (·.setLocal name value) else pure ()) >>=
        fun _ => pure (.done .decDone) := by
    by_cases exe : flags.executes
    · simp only [bindLocal, exe, if_true]
    · simp only [bindLocal, exe]
      rfl
  rw [acts]
  exact .change back (fun _ => gives_update _ _) (ScopeStack.serials_setLocal _ _ _) meaning

/-- A declaration is read behind its name. -/
theorem Declaration.performs (d : Declaration) (fits : s.Fits lib d.depth)
    (read : s.input.Streams (d.binding.map Lexeme.token) j) (closes : j.Closes t behind)
    (meaning : (d.exec lib).when flags.executes s.store e) :
    Performs (.ofNatives lib.natives observe) "dec" (stepDeclaration flags nl d.name.text none)
      s.enter e (fun _ => .decDone) j := by
  obtain ⟨name, value⟩ := d
  cases value with
  | none =>
    have next : s.input.next (lookahead nl) = (t, behind) := (read _).trans (closes.next _)
    have other : t.kind ≠ .assign := Token.Kind.ne_of_test closes.kind rfl
    refine .gives (gives_nextToken next closes.valid) (.read _ _ _) ?_
    rw [if_neg other]
    refine .gives (gives_update _ _) (.read _ _ _) ?_
    exact performs_bindLocal closes.again meaning
  | some value =>
    obtain ⟨i, equals, read⟩ := read
    have read : i.Seeded none _ j := read
    rw [Declaration.exec, Meaning.when_bind] at meaning
    refine .gives (gives_nextToken (equals _) (Lexeme.token_valid _)) (.read _ _ _) ?_
    refine .cond value rfl ?_ read (closes.follows _) meaning fun v e₂ s₁ hs₁ later => ?_
    · exact fits.enter.read
    · refine .gives (gives_session _) (.read _ _ _) ?_
      refine performs_bindLocal (hs₁ ▸ closes.again) ?_
      rw [Meaning.when_congr fun exe => by rw [hs₁, if_pos exe]]
      exact later

theorem closes_others {i : Input} {ds : List Declaration}
    (read : i.Streams ((others ds).map Lexeme.token) j) (closes : j.Closes t behind) :
    ∃ t' behind', i.Closes t' behind' := by
  cases ds with
  | nil => exact ⟨t, behind, fun phase => (read phase).trans (closes.next phase), closes.kind⟩
  | cons d ds =>
    obtain ⟨i', comma, _⟩ := read
    exact ⟨_, i', comma, rfl⟩

/-- The first of some declarations, and the others behind it. -/
theorem declarations_perform_first {d : Declaration} {ds : List Declaration}
    (fits : s.Fits lib (declarationsDepth (d :: ds)))
    (read : s.input.Streams ((d.lexemes ++ others ds).map Lexeme.token) j)
    (closes : j.Closes t behind)
    (meaning : (declareAll lib (d :: ds)).when flags.executes s.store e)
    (k : ∀ e' s', s'.Fits lib (declarationsDepth ds) →
      s'.input.Streams ((others ds).map Lexeme.token) j →
      (declareAll lib ds).when flags.executes s'.store e' →
      Performs (.ofNatives lib.natives observe) "declist" (stepDeclarations flags nl (some .decDone))
        s' e' (fun _ => .decListDone) j) :
    Performs (.ofNatives lib.natives observe) "declist" (stepDeclarations flags nl none) s e
      (fun _ => .decListDone) j := by
  rw [List.map_append] at read
  obtain ⟨mid, ⟨i, named, bound⟩, later⟩ := read.split
  obtain ⟨t', behind', separates⟩ := closes_others later closes
  rw [declareAll, Meaning.when_bind] at meaning
  have first : s.Fits lib d.depth := fits.mono (Nat.le_max_left _ _)
  refine .gives (gives_nextToken (named _) (Lexeme.token_valid _)) (.read _ _ _) ?_
  refine .push rfl first.one meaning
    (fun e₁ declared => d.performs first.read bound separates declared)
    fun _ e₂ s₁ turned place allowed => ?_
  exact k e₂ s₁ (turned.fits (fits.mono (Nat.le_max_right _ _)).read)
    ((place (by simp)).append later) allowed

/-- Declarations up to the token behind the last one, which is no comma. -/
theorem declarations_perform {d : Declaration} {ds : List Declaration}
    (fits : s.Fits lib (declarationsDepth (d :: ds)))
    (read : s.input.Streams ((d.lexemes ++ others ds).map Lexeme.token) j)
    (closes : j.Closes t behind) (last : t.kind ≠ .comma)
    (meaning : (declareAll lib (d :: ds)).when flags.executes s.store e) :
    Performs (.ofNatives lib.natives observe) "declist" (stepDeclarations flags nl none) s e
      (fun _ => .decListDone) j := by
  induction ds generalizing d s e with
  | nil =>
    refine declarations_perform_first fits read closes meaning fun e' s' _ read' done => ?_
    have next : s'.input.next (lookahead nl) = (t, behind) := (read' _).trans (closes.next _)
    rw [declareAll, Meaning.when_default] at done
    obtain rfl := done
    refine .gives (gives_nextToken next closes.valid) (.read _ _ _) ?_
    rw [if_neg last]
    refine .gives (gives_update _ _) (.read _ _ _) ?_
    exact .finish () rfl fun _ => closes.again
  | cons d' ds ih =>
    refine declarations_perform_first fits read closes meaning fun e' s' fits' read' later => ?_
    obtain ⟨i, comma, read'⟩ := read'
    refine .gives (gives_nextToken (comma _) (Lexeme.token_valid _)) (.read _ _ _) ?_
    exact ih fits'.read read' later

/-! ### Return -/

/-- A `return` with a value pushes the expression. -/
theorem stepReturning_value {c : Cond} (read : s.input.Streams (c.lexemes.map Lexeme.token) j) :
    ∃ i t', (stepReturning flags none).Gives s (.push ⟨flags, .returning⟩ (newCond flags true none))
        { s with input := i, token := t' } ∧
      i.Seeded none (c.lexemes.map Lexeme.token) j := by
  obtain ⟨t, i, first, starts, valid, again⟩ := c.starts.peek read
  refine ⟨i.unread t, t, ?_, again⟩
  refine (gives_nextToken (first _) valid).bind ((gives_update _ _).bind ?_)
  split
  case h_5 => exact gives_pure _ _
  all_goals
    rename_i kind
    exact absurd kind (Token.Kind.ne_of_test starts rfl)

/-- Only an executed `return` ends what is around it. -/
theorem performs_returned {e : Effect Flow} (back : s.input.Streams [] j)
    (meaning : (pure .returned : Meaning Flow).when flags.executes s.store e) :
    Performs (.ofNatives lib.natives observe) "return"
      (pure (.done (if flags.executes then .ret else .stmtDone))) s e (Flow.phase .stmtDone) j := by
  cases exe : flags.executes with
  | false =>
    rw [exe] at meaning
    obtain rfl : e = ⟨.ok .normal, s.store, []⟩ := meaning
    exact .finish Flow.normal rfl fun _ => back
  | true =>
    rw [exe] at meaning
    obtain rfl : e = ⟨.ok .returned, s.store, []⟩ := meaning
    exact .finish Flow.returned rfl fun _ => back

theorem return_performs (value : Option Cond) {e : Effect Flow}
    (fits : s.Fits lib (optionalDepth value))
    (read : s.input.Streams ((optional value).map Lexeme.token) j)
    (closes : j.Closes t behind) (semicolon : t.kind = .semicolon)
    (meaning : ((Stmt.ret value).exec lib).when flags.executes s.store e) :
    Performs (.ofNatives lib.natives observe) "return" (stepReturning flags none) s e
      (Flow.phase .stmtDone) j := by
  cases value with
  | none =>
    have next : s.input.next .stmtDone = (t, behind) := (read _).trans (closes.next _)
    refine .gives (gives_nextToken next closes.valid) (.read _ _ _) ?_
    refine .gives (gives_update _ _) (.read _ _ _) ?_
    simp only [semicolon]
    rw [Stmt.exec, Meaning.when_bind] at meaning
    split
    · rename_i exe
      rw [exe] at meaning
      obtain ⟨_, rfl, e₂, rfl, rfl⟩ := meaning
      refine .gives (gives_update _ _) (.answer _ "") ?_
      exact .finish Flow.returned rfl fun _ => closes.again
    · rename_i exe
      rw [Bool.not_eq_true] at exe
      rw [exe] at meaning
      obtain ⟨_, rfl, e₂, rfl, rfl⟩ := meaning
      exact .finish Flow.normal rfl fun _ => closes.again
  | some c =>
    obtain ⟨i, t', gives, read⟩ := stepReturning_value read
    rw [Stmt.exec, Meaning.when_bind] at meaning
    refine .moves gives (.read _ _ _) ?_
    refine .cond c rfl fits.read read (closes.follows _) meaning fun v e₂ s₁ hs₁ later => ?_
    exact performs_returned (hs₁ ▸ closes.again) later

end Performs

end Syntax

end Scriptlet
