import Scriptlet.Proofs.Loop

/-!
A statement does what its tree says. The induction is on the tree; what is executed and what is only
read over are followed together.
-/

namespace Scriptlet

variable {H β : Type}

open Syntax Act Scriptlet.Frame Meaning

theorem Flow.phase_eq_ret {done : Phase} (other : done ≠ .ret) (flow : Flow) :
    flow.phase done = .ret ↔ flow = .returned := by
  cases flow with
  | normal => simp [phase, other]
  | returned => simp [phase]

section Enacts

variable {lib : Library} {observe : Event → H → H} {n : Nat} {b : Bool} {ts : List Token}

/-- A statement made of a construct that starts with the token `first`. -/
theorem enacts_compound {m : Meaning Flow} {first : Token} {inner : Construct} (done : Phase)
    (other : done ≠ .ret) (valid : first.kind ≠ .error)
    (opens : ∀ flags, openStatement flags first =
      pure (.push ⟨flags, .statement (.forward false)⟩ ⟨flags, inner⟩))
    (h : ∀ {flags : Flags} {s : Session} {j : Input} {e : Effect Flow}, s.Fits lib n →
      s.input.Streams ts j → j.Detached b → m.when flags.executes s.store e →
      Performs (.ofNatives lib.natives observe) (Frame.name ⟨flags, inner⟩)
        (Frame.step ⟨flags, inner⟩ none) s e (Flow.phase done) j) :
    Enacts lib observe (2 + n) b (first :: ts) m := by
  constructor
  intro flags s j e fits read free meaning
  obtain ⟨i, next, read⟩ := read
  have fits : s.Fits lib (1 + (1 + n)) := fits.mono (by omega)
  rw [← bind_pure (m.when _)] at meaning
  refine .gives (gives_nextToken (next _) valid) (.read _ _ _) ?_
  rw [opens]
  exact .forward fits.enter.one meaning
    (fun e₁ => h fits.enter.enter.read read free) (Flow.phase_eq_ret other) (Input.streams_refl j)

/-- A statement that is ended by a semicolon. -/
theorem enacts_terminated [Inhabited β] {m : Meaning β} {first : Token} {inner : Construct}
    (inside : β → Phase) {flow : β → Flow} (valid : first.kind ≠ .error)
    (opens : ∀ flags, openStatement flags first =
      pure (.push ⟨flags, .statement (.forward true)⟩ ⟨flags, inner⟩))
    (same : ∀ a, inside a = .ret ↔ flow a = .returned) (rests : flow default = .normal)
    (h : ∀ {flags : Flags} {s : Session} {j behind : Input} {e : Effect β}, s.Fits lib n →
      s.input.Streams ts j → j.Closes (sym .semicolon).token behind →
      m.when flags.executes s.store e →
      Performs (.ofNatives lib.natives observe) (Frame.name ⟨flags, inner⟩)
        (Frame.step ⟨flags, inner⟩ none) s e inside j) :
    Enacts lib observe (2 + n) b (first :: (ts ++ [(sym .semicolon).token]))
      (m >>= fun a => pure (flow a)) := by
  constructor
  intro flags s j e fits read free meaning
  obtain ⟨i, next, read⟩ := read
  obtain ⟨k, read, ends⟩ := read.split
  obtain ⟨behind, closes, _⟩ := ends.closes rfl
  have fits : s.Fits lib (1 + (1 + n)) := fits.mono (by omega)
  rw [when_map _ _ rests] at meaning
  refine .gives (gives_nextToken (next _) valid) (.read _ _ _) ?_
  rw [opens]
  exact .forward fits.enter.one meaning
    (fun e₁ => h fits.enter.enter.read read closes) same ends

theorem enacts_simple (x : Simple) :
    Enacts lib observe (1 + x.depth) b (x.lexemes.map Lexeme.token ++ [(sym .semicolon).token])
      (x.exec lib >>= fun _ => pure .normal) := by
  constructor
  intro flags s j e fits read free meaning
  obtain ⟨k, read, ends⟩ := read.split
  obtain ⟨behind, closes, _⟩ := ends.closes rfl
  obtain ⟨t, i, next, starts, valid, again⟩ := x.starts.peek read
  have rests : (fun _ : Unit => Flow.normal) default = default := rfl
  rw [when_map _ _ rests] at meaning
  refine .gives (gives_nextToken (next _) valid) (.read _ _ _) ?_
  rw [openStatement_expr flags starts]
  refine .gives (gives_update _ _) (.read _ _ _) ?_
  exact .forward (fits.enter.pos x.depth_pos) meaning
    (fun e₁ => x.performs fits.enter.read again closes) (by simp) ends

theorem enacts_empty : Enacts lib observe 1 b [(sym .semicolon).token] (pure .normal) := by
  constructor
  intro flags s j e fits read free meaning
  obtain ⟨i, next, read⟩ := read
  have meaning : (pure default : Meaning Flow).when flags.executes s.store e := meaning
  rw [when_default] at meaning
  obtain rfl := meaning
  refine .gives (gives_nextToken (next _) (Lexeme.token_valid _)) (.read _ _ _) ?_
  exact .finish Flow.normal rfl fun _ => read

end Enacts

/-! ### Trees -/

theorem Input.Streams.detached {i j : Input} {t : Token} {ts : List Token} {b : Bool}
    (h : i.Streams (t :: ts) j) (valid : t.kind ≠ .error) (line : t.kind ≠ .newline)
    (other : t.kind ≠ .elseWord) : i.Detached b := by
  obtain ⟨behind, next, _⟩ := h
  exact fun _ => ⟨t, behind, next, valid, line, other⟩

namespace Syntax

theorem Stmt.depth_pos {b : Bool} (st : Stmt b) : 0 < st.depth := by
  cases st <;> simp only [Stmt.depth] <;> omega

/-- A statement does not start with an `else`. -/
theorem Stmt.leads {b : Bool} (st : Stmt b) : ∃ l rest, st.lexemes = l :: rest ∧
    l.token.kind ≠ .newline ∧ l.token.kind ≠ .elseWord := by
  cases st with
  | simple x =>
    obtain ⟨l, rest, heq, starts⟩ := x.starts
    refine ⟨l, rest ++ [sym .semicolon], ?_, Token.Kind.ne_of_test starts rfl,
      Token.Kind.ne_of_test starts rfl⟩
    rw [Stmt.lexemes, heq]
    rfl
  | _ => exact ⟨_, _, rfl, by rintro ⟨⟩, by rintro ⟨⟩⟩

theorem Stmts.detached {b : Bool} {i j : Input} (body : Stmts)
    (read : i.Streams (body.lexemes.map Lexeme.token) j) (free : j.Detached true) :
    i.Detached b := by
  cases body with
  | nil =>
    obtain ⟨t, behind, next, rest⟩ := free rfl
    exact fun _ => ⟨t, behind, fun phase => (read phase).trans (next phase), rest⟩
  | cons first rest =>
    obtain ⟨l, ls, heq, line, other⟩ := first.leads
    rw [Stmts.lexemes, heq] at read
    exact read.detached l.token_valid line other

variable {lib : Library} {observe : Event → H → H}

mutual

theorem Stmt.enacts {b : Bool} : (st : Stmt b) →
    Enacts lib observe st.depth b (st.lexemes.map Lexeme.token) (st.exec lib)
  | .empty => enacts_empty
  | .block body => by
    have whole : Enacts lib observe (2 + max 1 body.depth) false ((sym .lbrace).token ::
        (body.lexemes.map Lexeme.token ++ [(sym .rbrace).token])) (enclosed (body.exec lib)) := by
      refine enacts_compound .stmtBlockDone (by rintro ⟨⟩) (Lexeme.token_valid _) (fun _ => rfl)
        fun fits read _ meaning => ?_
      refine block_performs (fun scope s e fits read meaning => ?_) fits read meaning
      exact body.unrolls (by omega) (by omega) fits read meaning
    rw [Stmt.depth, Stmt.lexemes, List.map_cons, List.map_append]
    exact whole
  | .branch c t => by
    rw [Stmt.depth, Stmt.lexemes, Stmt.exec]
    simp only [List.map_cons, List.map_append]
    refine enacts_compound .stmtDone (by rintro ⟨⟩) (Lexeme.token_valid _) (fun _ => rfl)
      fun fits read free meaning => ?_
    exact branch_performs t.enacts fits read free meaning
  | .branchElse c t e => by
    rw [Stmt.depth, Stmt.lexemes, Stmt.exec]
    simp only [List.map_cons, List.map_append]
    refine enacts_compound .stmtDone (by rintro ⟨⟩) (Lexeme.token_valid _) (fun _ => rfl)
      fun fits read free meaning => ?_
    exact branch_else_performs t.enacts e.enacts fits read free meaning
  | .loop init c step body => by
    rw [Stmt.depth, Stmt.lexemes, Stmt.exec]
    simp only [List.map_cons, List.map_append]
    refine enacts_compound .stmtDone (by rintro ⟨⟩) (Lexeme.token_valid _) (fun _ => rfl)
      fun fits read free meaning => ?_
    exact loop_performs ⟨⟨_, body.enacts, free⟩, body.depth_pos⟩ fits read meaning
  | .declare first rest => by
    rw [Stmt.depth, Stmt.lexemes, Stmt.exec, ← List.append_assoc, List.map_cons, List.map_append]
    refine enacts_terminated (fun _ => .decListDone) (Lexeme.token_valid _) (fun _ => rfl)
      (by simp) rfl fun fits read closes meaning => ?_
    exact declarations_perform fits read closes (by rintro ⟨⟩) meaning
  | .simple x => by
    rw [Stmt.depth, Stmt.lexemes, List.map_append, Stmt.exec]
    exact enacts_simple x
  | .ret value => by
    rw [Stmt.depth, Stmt.lexemes, List.map_cons, List.map_append,
      ← bind_pure ((Stmt.ret value).exec lib)]
    refine enacts_terminated (Flow.phase .stmtDone) (Lexeme.token_valid _) (fun _ => rfl)
      (Flow.phase_eq_ret (by rintro ⟨⟩)) rfl fun fits read closes meaning => ?_
    exact return_performs value fits read closes rfl meaning

theorem Stmts.unrolls {flags : Flags} {scope : Option BlockId} {s : Session} {j : Input}
    {e : Effect Flow} {n : Nat} : (body : Stmts) → body.depth ≤ n → 0 < n → s.Fits lib n →
    s.input.Streams (body.lexemes.map Lexeme.token ++ [(sym .rbrace).token]) j →
    (body.exec lib).when flags.executes s.store e →
    Unrolls (.ofNatives lib.natives observe) flags scope s e j
  | .nil, _, positive, fits, read, meaning => by
    have meaning : (pure default : Meaning Flow).when flags.executes s.store e := meaning
    rw [when_default] at meaning
    obtain rfl := meaning
    exact .nil (fits.pos positive) read
  | .cons first rest, shallow, positive, fits, read, meaning => by
    rw [Stmts.lexemes, List.map_append, List.append_assoc] at read
    obtain ⟨i, read, later⟩ := read.split
    obtain ⟨k, others, brace⟩ := later.split
    have ended : k.Detached true :=
      brace.detached (Lexeme.token_valid _) (by rintro ⟨⟩) (by rintro ⟨⟩)
    rw [Stmts.depth] at shallow
    refine .cons first.enacts (fits.mono (by omega)) (fits.pos positive) read
      (rest.detached others ended) meaning fun e₂ s₁ turned place allowed => ?_
    exact rest.unrolls (by omega) positive (turned.fits fits) (place.append later) allowed

end

end Syntax

end Scriptlet
