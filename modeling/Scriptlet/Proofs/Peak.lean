import Scriptlet.Proofs.SimpleStatement

/-!
How deep an expression takes the machine. A frame that only reads is followed to its end, and the
greatest depth on the way is noted; one frame after another takes the greater of their depths. An
expression that is read over gets as deep as its tree says, to the frame.
-/

namespace Scriptlet

open Act

/-- `move.Climbs s phase s' n`: a frame that makes this move on `s` completes in `phase` without
any call and leaves `s'`; the greatest depth on the way is `n`. -/
inductive Move.Climbs : Move → Session → Phase → Session → Nat → Prop where
  | done {phase s} : Climbs (.done phase) s phase s.leave s.depth
  | stay {self s move scene phase s' n} :
      self.act none s = (.ok move, scene) → Climbs move scene.session phase s' n →
      Climbs (.stay self) s phase s' n
  | push {self inner s move scene phase s₁ n move' scene' phase' s' m} :
      inner.act none s.enter = (.ok move, scene) → Climbs move scene.session phase s₁ n →
      self.act (some phase) s₁ = (.ok move', scene') → Climbs move' scene'.session phase' s' m →
      Climbs (.push self inner) s phase' s' (max n m)

/-- A frame takes one way only. -/
theorem Move.Climbs.unique {move : Move} {s s₁ s₂ : Session} {phase₁ phase₂ : Phase} {n m : Nat}
    (h : move.Climbs s phase₁ s₁ n) (k : move.Climbs s phase₂ s₂ m) :
    phase₂ = phase₁ ∧ s₂ = s₁ ∧ m = n := by
  induction h generalizing phase₂ s₂ m with
  | done =>
    cases k
    exact ⟨rfl, rfl, rfl⟩
  | stay act _ ih =>
    cases k with
    | stay act' climbs =>
      cases act.symm.trans act'
      exact ih climbs
  | push act₁ _ act₂ _ ih₁ ih₂ =>
    cases k with
    | push act₁' climbs₁ act₂' climbs₂ =>
      cases act₁.symm.trans act₁'
      obtain ⟨rfl, rfl, rfl⟩ := ih₁ climbs₁
      cases act₂.symm.trans act₂'
      obtain ⟨rfl, rfl, rfl⟩ := ih₂ climbs₂
      exact ⟨rfl, rfl, rfl⟩

namespace Act

variable {α : Type} {phase : Phase} {s s₁ s' : Session} {n m : Nat} {i j : Input} {t : Token}

def Climbs (x : Act Move) (s : Session) (phase : Phase) (s' : Session) (n : Nat) : Prop :=
  ∃ move s₁, x.Gives s move s₁ ∧ move.Climbs s₁ phase s' n

namespace Climbs

theorem gives {x : Act α} {f : α → Act Move} {a : α} (h : x.Gives s a s₁)
    (k : (f a).Climbs s₁ phase s' n) : (x >>= f).Climbs s phase s' n := by
  obtain ⟨move, s₂, gives, climbs⟩ := k
  exact ⟨move, s₂, h.bind gives, climbs⟩

theorem moves {x : Act Move} {move : Move} (h : x.Gives s move s₁)
    (k : (pure move : Act Move).Climbs s₁ phase s' n) : x.Climbs s phase s' n := by
  have whole : (x >>= pure).Climbs s phase s' n := gives h k
  rwa [bind_pure] at whole

theorem done {x : Act Move} (h : x.Gives s (.done phase) s₁) :
    x.Climbs s phase s₁.leave s₁.depth :=
  ⟨_, _, h, .done⟩

theorem stay {self : Frame} (h : (self.step none).Climbs s phase s' n) :
    (pure (.stay self) : Act Move).Climbs s phase s' n := by
  obtain ⟨move, s₁, gives, climbs⟩ := h
  obtain ⟨journal, act⟩ := gives []
  exact ⟨_, _, gives_pure _ _, .stay act climbs⟩

theorem push {self inner : Frame} {inside : Phase}
    (h : (inner.step none).Climbs s.enter inside s₁ n)
    (k : (self.step (some inside)).Climbs s₁ phase s' m) :
    (pure (.push self inner) : Act Move).Climbs s phase s' (max n m) := by
  obtain ⟨move, s₂, gives, climbs⟩ := h
  obtain ⟨move', s₃, gives', climbs'⟩ := k
  obtain ⟨journal, act⟩ := gives []
  obtain ⟨journal', act'⟩ := gives' []
  exact ⟨_, _, gives_pure _ _, .push act climbs act' climbs'⟩

end Climbs

/-- From `s`, what `x` does comes to `y` at a place where `phase` reads the same as from `j`.
Nothing has changed but the place, and the greatest depth on the way was `n`. -/
def Scans (x : Act Move) (phase : Phase) (s : Session) (n : Nat) (y : Act Move) (j : Input) :
    Prop :=
  s.depth ≤ n ∧ ∃ input token, input.next phase = j.next phase ∧ ∀ {done s' m}, s.depth ≤ m →
    y.Climbs { s with input, token } done s' m → x.Climbs s done s' (max n m)

namespace Scans

variable {x y z : Act Move}

theorem refl (place : s.input.next phase = j.next phase) : x.Scans phase s s.depth x j := by
  refine ⟨Nat.le_refl _, s.input, s.token, place, fun le climbs => ?_⟩
  rwa [Nat.max_eq_right le]

theorem gives {x : Act α} {f : α → Act Move} {a : α}
    (h : x.Gives s a { s with input := i, token := t })
    (k : (f a).Scans phase { s with input := i, token := t } n y j) :
    (x >>= f).Scans phase s n y j := by
  obtain ⟨le, input, token, place, rest⟩ := k
  exact ⟨le, input, token, place, fun le climbs => .gives h (rest le climbs)⟩

theorem moves {move : Move} (h : x.Gives s move { s with input := i, token := t })
    (k : (pure move : Act Move).Scans phase { s with input := i, token := t } n y j) :
    x.Scans phase s n y j := by
  have whole : (x >>= pure).Scans phase s n y j := gives h k
  rwa [bind_pure] at whole

theorem stay {self : Frame} (h : (self.step none).Scans phase s n y j) :
    (pure (.stay self) : Act Move).Scans phase s n y j := by
  obtain ⟨le, input, token, place, rest⟩ := h
  exact ⟨le, input, token, place, fun le climbs => (rest le climbs).stay⟩

theorem push {self inner : Frame} {inside : Phase}
    (h : (inner.step none).Climbs s.enter inside { s with input := i, token := t } n)
    (k : (self.step (some inside)).Scans phase { s with input := i, token := t } m y j) :
    (pure (.push self inner) : Act Move).Scans phase s (max n m) y j := by
  obtain ⟨le, input, token, place, rest⟩ := k
  refine ⟨Nat.le_trans le (Nat.le_max_right n m), input, token, place, fun le climbs => ?_⟩
  rw [Nat.max_assoc]
  exact .push h (rest le climbs)

theorem trans (h : x.Scans phase s n y i)
    (k : ∀ input token, input.next phase = i.next phase →
      y.Scans phase { s with input, token } m z j) : x.Scans phase s (max n m) z j := by
  obtain ⟨le, input, token, place, rest⟩ := h
  obtain ⟨le', input', token', place', rest'⟩ := k input token place
  refine ⟨Nat.le_trans le (Nat.le_max_left n m), input', token', place', fun le climbs => ?_⟩
  rw [Nat.max_assoc]
  exact rest (Nat.le_trans le' (Nat.le_max_left _ _)) (rest' le climbs)

theorem climbs {inside : Phase} {behind : Input} (h : x.Scans phase s n y j)
    (next : j.next phase = (t, behind))
    (close : ∀ input token, input.next phase = (t, behind) →
      y.Gives { s with input, token } (.done inside)
        { s with input := behind.unread t, token := t }) :
    x.Climbs s inside { s with input := behind.unread t, token := t }.leave n := by
  obtain ⟨le, input, token, place, rest⟩ := h
  have last := rest (m := s.depth) (Nat.le_refl _)
    ⟨_, _, close input token (place.trans next), .done⟩
  rwa [Nat.max_eq_left le] at last

end Scans

end Act

/-- What follows is put back, and read again. -/
theorem Input.Follows.again {j behind : Input} {phase : Phase} {ends : Token.Kind → Bool}
    {t : Token} (h : j.Follows phase ends t behind) :
    (behind.unread t).next phase = j.next phase :=
  (next_unread_next h.next phase).trans h.next.symm

/-! ### Frames that only read -/

namespace Frame

variable {nl : Bool} {s : Session} {t : Token} {i j behind : Input} {n : Nat}

theorem closeTerm_none (terms : Terms) (value : String) :
    closeTerm .none nl terms value = closeExpr .none nl "" := by
  simp [closeTerm_eq]

theorem innerTerm_none (terms : Terms) :
    innerValue .none >>= closeTerm .none nl terms = closeExpr .none nl "" := by
  simp [innerValue, closeTerm_none]

/-- A frame that has read an operand goes on behind it. -/
theorem operand_scans {self child : Frame} {phase inside : Phase} {y : Act Move}
    (h : (child.step none).Climbs s.enter inside { s with input := i, token := t } n)
    (deep : s.depth ≤ n) (place : i.next phase = j.next phase)
    (same : self.step (some inside) = y) :
    (pure (.push self child) : Act Move).Scans phase s n y j := by
  have whole : (pure (.push self child) : Act Move).Scans phase s (max n s.depth)
      (self.step (some inside)) j := .push h (.refl place)
  rwa [Nat.max_eq_left deep, same] at whole

theorem expr_climbs {seed : Option Token}
    (h : (stepExpr .none nl { stage := .term seed }).Scans (lookahead nl) s.enter n
      (closeExpr .none nl "") j)
    (follows : j.Follows (lookahead nl) Token.Kind.endsExpr t behind) :
    ((newExpr .none nl seed).step none).Climbs s.enter .exprDone
      { s with input := behind.unread t, token := t } n :=
  h.climbs follows.next fun _ _ place => closeExpr_ends place follows.valid follows.ends ""

theorem rel_climbs {seed : Option Token}
    (h : (stepRel .none nl (.start seed)).Scans (lookahead nl) s.enter n (closeRel .none nl "") j)
    (follows : j.Follows (lookahead nl) Token.Kind.endsRel t behind) :
    ((newRel .none nl seed).step none).Climbs s.enter .relExpDone
      { s with input := behind.unread t, token := t } n :=
  h.climbs follows.next fun _ _ place => closeRel_ends place follows.valid follows.ends ""

theorem cond_climbs {seed : Option Token}
    (h : (stepCond .none nl (.start seed)).Scans (lookahead nl) s.enter n
      (closeCond .none nl "") j)
    (follows : j.Follows (lookahead nl) Token.Kind.endsCond t behind) :
    ((newCond .none nl seed).step none).Climbs s.enter .condDone
      { s with input := behind.unread t, token := t } n :=
  h.climbs follows.next fun _ _ place => closeCond_ends place follows.valid follows.ends ""

/-- A chain that is to read a term opens it with its first token, which may have been read. -/
theorem stepExpr_scans {seed : Option Token} {ls : List Lexeme} {terms : Terms} {y : Act Move}
    (stage : terms.stage = .term seed) (read : s.input.Seeded seed (ls.map Lexeme.token) j)
    (some : ls ≠ [])
    (k : ∀ first rest input token, ls.map Lexeme.token = first :: rest → input.Streams rest j →
      (openTerm .none nl terms first).Scans (lookahead nl) { s with input, token } n y j) :
    (stepExpr .none nl terms).Scans (lookahead nl) s n y j := by
  simp only [stepExpr, stage]
  cases seed with
  | some t =>
    obtain ⟨rest, heq, others⟩ := read
    exact k t rest s.input s.token heq others
  | none =>
    cases ls with
    | nil => exact absurd rfl some
    | cons l ls =>
      obtain ⟨behind, first, others⟩ := read
      exact .gives (gives_nextToken (first .expr) l.token_valid) (k l.token _ behind _ rfl others)

theorem call_climbs {name : String} {last : Input}
    (next : s.input.next .expr = (.symbol .lparen, i))
    (h : (stepArguments .none none).Climbs
      { s with input := i, token := .symbol .lparen, depth := s.depth + 2 } .argListDone
      { s with input := last, token := .symbol .rparen, depth := s.depth + 1 } n)
    (deep : s.depth + 1 ≤ n) :
    (stepCall .none name .opening).Climbs s.enter .exprDone
      { s with input := last, token := .symbol .rparen } n := by
  refine .gives (gives_expect next rfl (by simp)) ?_
  simp only [Flags.executes_none, Bool.false_eq_true, if_false, pure_bind]
  have whole : (pure (.push ⟨.none, .call name (.invoking none)⟩ ⟨.none, .arguments⟩) :
      Act Move).Climbs { s.enter with input := i, token := .symbol .lparen } .exprDone _
      (max n (s.depth + 1)) := .push h (.done (gives_pure _ _))
  rwa [Nat.max_eq_left deep] at whole

end Frame

/-! ### Trees -/

namespace Syntax

open Scriptlet.Frame

mutual

theorem Cond.scans (nl : Bool) {s : Session} {seed : Option Token} {j behind : Input}
    {t : Token} : (c : Cond) →
    (read : s.input.Seeded seed (c.lexemes.map Lexeme.token) j) →
    (follows : j.Follows (lookahead nl) Token.Kind.endsRel t behind) →
    (stepCond .none nl (.start seed)).Scans (lookahead nl) s (s.depth + 2 + c.extra)
      (closeCond .none nl "") j
  | .operand r, read, follows => by
    have deep : s.depth + 2 + (Cond.operand r).extra = s.enter.depth + 1 + r.extra := by
      simp only [Cond.extra]
    have operand := r.scans nl (s := s.enter) read (follows.mono Token.Kind.endsExpr_of_endsRel)
    rw [deep]
    exact operand_scans (rel_climbs operand follows) (by simp only; omega) follows.again
      (stepCond_first .none nl)
  | .join left op right, read, follows => by
    have deep : s.depth + 2 + (Cond.join left op right).extra =
        max (s.depth + 2 + left.extra) (s.enter.depth + 1 + right.extra) := by
      simp only [Cond.extra]
      omega
    simp only [Cond.lexemes, List.map_append, List.map_cons] at read
    obtain ⟨mid, before, after⟩ := read.split (by simpa using left.starts.ne_nil)
    obtain ⟨i, between, later⟩ := after.follows (Lexeme.token_valid _) op.ends (lookahead nl)
    rw [deep]
    refine (left.scans nl before between).trans fun input token place => ?_
    refine .moves (closeCond_logical op (place.trans between.next)) ?_
    have operand := right.scans nl (s := { s.enter with input := i, token := op.lexeme.token })
      later (follows.mono Token.Kind.endsExpr_of_endsRel)
    exact operand_scans (rel_climbs operand follows) (by simp only; omega) follows.again
      (stepCond_joining .none nl "" op.1 false)

theorem Rel.scans (nl : Bool) {s : Session} {seed : Option Token} {j behind : Input}
    {t : Token} : (r : Rel) →
    (read : s.input.Seeded seed (r.lexemes.map Lexeme.token) j) →
    (follows : j.Follows (lookahead nl) Token.Kind.endsExpr t behind) →
    (stepRel .none nl (.start seed)).Scans (lookahead nl) s (s.depth + 1 + r.extra)
      (closeRel .none nl "") j
  | .operand a, read, follows => by
    have deep : s.depth + 1 + (Rel.operand a).extra = s.enter.depth + a.extra := by
      simp only [Rel.extra]
    have operand := a.scans nl (s := s.enter) read
    rw [deep]
    exact operand_scans (expr_climbs operand follows) (by simp only; omega) follows.again
      (stepRel_first .none nl)
  | .compare left op right, read, follows => by
    have deep : s.depth + 1 + (Rel.compare left op right).extra =
        max (s.depth + 1 + left.extra) (s.enter.depth + right.extra) := by
      simp only [Rel.extra]
      omega
    simp only [Rel.lexemes, List.map_append, List.map_cons] at read
    obtain ⟨mid, before, after⟩ := read.split (by simpa using left.starts.ne_nil)
    obtain ⟨i, between, later⟩ := after.follows (Lexeme.token_valid _) op.ends (lookahead nl)
    rw [deep]
    refine (left.scans nl before between).trans fun input token place => ?_
    refine .moves (closeRel_relational op (place.trans between.next)) ?_
    have operand :=
      right.scans nl (s := { s.enter with input := i, token := op.lexeme.token }) later
    exact operand_scans (expr_climbs operand follows) (by simp only; omega) follows.again
      (stepRel_joining .none nl "" op.1)

theorem Arith.scans (nl : Bool) {s : Session} {seed : Option Token} {j : Input} : (a : Arith) →
    (read : s.input.Seeded seed (a.lexemes.map Lexeme.token) j) →
    (stepExpr .none nl { stage := .term seed }).Scans (lookahead nl) s (s.depth + a.extra)
      (closeExpr .none nl "") j
  | .operand t, read => stepExpr_scans rfl read t.starts.ne_nil fun _ _ _ _ heq others =>
      t.scans nl { stage := .term seed } heq others
  | .apply left op right, read => by
    have deep : s.depth + (Arith.apply left op right).extra =
        max (s.depth + left.extra) (s.depth + right.extra) := by
      simp only [Arith.extra]
      omega
    simp only [Arith.lexemes, List.map_append, List.map_cons] at read
    obtain ⟨mid, before, i, between, later⟩ := read.split (by simpa using left.starts.ne_nil)
    have later : i.Seeded none _ j := later
    rw [deep]
    refine (left.scans nl before).trans fun input token place => ?_
    refine .moves (closeExpr_arithmetic op (place.trans (between _))) (.stay ?_)
    show (stepExpr .none nl { stage := .term none, left := some ("", op.1) }).Scans _ _ _ _ _
    exact stepExpr_scans rfl later right.starts.ne_nil fun _ _ _ _ heq others =>
      right.scans nl { stage := .term none, left := some ("", op.1) } heq others

theorem Term.scans (nl : Bool) (terms : Terms) {s : Session} {first : Token} {rest : List Token}
    {j : Input} : (t : Term) →
    (heq : t.lexemes.map Lexeme.token = first :: rest) →
    (read : s.input.Streams rest j) →
    (openTerm .none nl terms first).Scans (lookahead nl) s (s.depth + t.extra)
      (closeExpr .none nl "") j
  | .literal l, heq, read => by
    obtain ⟨rfl, rfl⟩ : _ ∧ _ := by simpa [Term.lexemes] using heq
    have same : openTerm .none nl terms (Lexeme.literal l).token = closeExpr .none nl "" :=
      closeTerm_none terms l.value
    rw [same]
    exact .refl (read _)
  | .variable n, heq, read => by
    obtain ⟨rfl, rfl⟩ : _ ∧ _ := by simpa [Term.lexemes] using heq
    have same : openTerm .none nl terms (Lexeme.name n).token = closeExpr .none nl "" :=
      (openTerm_identifier .none nl terms n.text).trans (closeTerm_none terms "")
    rw [same]
    exact .refl (read _)
  | .unary op t, heq, read => by
    simp only [Term.lexemes, List.map_cons, List.cons.injEq] at heq
    obtain ⟨rfl, rfl⟩ := heq
    have read : s.input.Seeded none _ j := read
    rw [openTerm_unary]
    refine .stay ?_
    show (stepExpr .none nl
      { terms with stage := .term none, unary := op :: terms.unary }).Scans _ _ _ _ _
    exact stepExpr_scans rfl read t.starts.ne_nil fun _ _ _ _ heq others => t.scans nl _ heq others
  | .call name args, heq, read => by
    simp only [Term.lexemes, List.map_cons, List.map_append, List.cons.injEq] at heq
    obtain ⟨rfl, rfl⟩ := heq
    obtain ⟨i, opens, within⟩ := read
    obtain ⟨mid, values, last, closes, place⟩ := within.split
    have collected := args.climbs false
      (s := { s with input := i, token := .symbol .lparen, depth := s.depth + 2 }) values closes
    have deep : s.depth + (Term.call name args).extra = s.depth + 2 + args.extra := by
      simp only [Term.extra]
      omega
    rw [deep]
    exact operand_scans (call_climbs (opens _) collected (by omega)) (by omega) (place _)
      (innerTerm_none _)
  | .paren c, heq, read => by
    simp only [Term.lexemes, List.map_cons, List.map_append, List.cons.injEq] at heq
    obtain ⟨rfl, rfl⟩ := heq
    obtain ⟨mid, inside, behind, closes, place⟩ := read.split
    have inside : s.input.Seeded none _ mid := inside
    have follows : mid.Follows (lookahead false) Token.Kind.endsCond (sym .rparen).token behind :=
      ⟨closes _, Lexeme.token_valid _, rfl⟩
    have deep : s.depth + (Term.paren c).extra = max (s.enter.depth + 2 + c.extra) s.depth := by
      simp only [Term.extra]
      omega
    have inner := c.scans false (s := s.enter) inside (follows.mono Token.Kind.endsRel_of_endsCond)
    rw [deep]
    refine .push (cond_climbs inner follows) ?_
    refine .gives (gives_expect (Input.next_unread_next (closes .expr) _) rfl (by simp)) ?_
    show (innerValue .none >>= closeTerm .none nl _).Scans _ _ _ _ _
    rw [innerTerm_none]
    exact .refl (place _)

theorem Args.climbs (again : Bool) {s : Session} {mid last : Input} : (args : Args) →
    (read : s.input.Streams ((args.from again).map Lexeme.token) mid) →
    (close : ∀ phase, mid.next phase = (.symbol .rparen, last)) →
    (seekArgument .none again).Climbs s .argListDone
      { s with input := last, token := .symbol .rparen }.leave (s.depth + args.extra)
  | .nil, read, close => by
    have empty : (Args.nil.from again).map Lexeme.token = [] := by cases again <;> rfl
    rw [empty] at read
    have paren := gives_nextToken ((read .argList).trans (close .argList)) (by simp [Token.symbol])
    cases again with
    | false => exact .gives paren (.done (gives_pure _ _))
    | true => exact .gives paren (.done (gives_pure _ _))
  | .cons first rest, read, close => by
    have deep : s.depth + (Args.cons first rest).extra =
        max (s.enter.depth + 2 + first.extra) (s.depth + rest.extra) := by
      simp only [Args.extra]
      omega
    obtain ⟨i, t', gives, within⟩ := seekArgument_finds .none again read
    obtain ⟨mid₁, argument, others⟩ := within.split
    obtain ⟨t, behind, next, valid, ends⟩ := Args.ends_others others close
    have follows : mid₁.Follows (lookahead false) Token.Kind.endsCond t behind :=
      ⟨next _, valid, ends⟩
    have argument : i.Seeded none _ mid₁ := argument
    have inner := first.scans false (s := { s.enter with input := i, token := t' }) argument
      (follows.mono Token.Kind.endsRel_of_endsCond)
    have back : (behind.unread t).Streams [] mid₁ := fun phase =>
      (Input.next_unread_next (next .expr) phase).trans (next phase).symm
    have later := rest.climbs true (s := { s with input := behind.unread t, token := t })
      (back.append others) close
    rw [deep]
    refine .moves gives (.push (cond_climbs inner follows) ?_)
    show (stepArguments .none (some .condDone)).Climbs _ _ _ _
    rw [stepArguments_some]
    exact .gives (gives_pure () _) later

end

/-- An expression that stands as a statement, up to the token behind it. -/
theorem Cond.simple_climbs (c : Cond) (nl : Bool) {s : Session} {j behind : Input} {t : Token}
    (read : s.input.Streams (c.lexemes.map Lexeme.token) j)
    (next : ∀ phase, j.next phase = (t, behind)) (valid : t.kind ≠ .error)
    (silent : t.kind.isQuiet = true) (ends : t.kind.endsCond = true) :
    ((newSimple .none nl).step none).Climbs s.enter .exprDone
      { s with input := behind.unread t, token := t } (s.depth + 4 + c.extra) := by
  have deep : s.depth + 4 + c.extra = max (s.enter.enter.depth + 2 + c.extra) s.enter.depth := by
    simp only
    omega
  obtain ⟨seed, i, t', gives, read⟩ := stepSimple_expr (s := s.enter) c read next valid silent
  have follows : j.Follows (lookahead nl) Token.Kind.endsCond t behind := ⟨next _, valid, ends⟩
  have inner := c.scans nl (s := { s.enter.enter with input := i, token := t' }) read
    (follows.mono Token.Kind.endsRel_of_endsCond)
  rw [deep]
  exact .moves gives (.push (cond_climbs (s := { s.enter with input := i, token := t' }) inner
    follows) (.done (gives_pure _ _)))

end Syntax

end Scriptlet
