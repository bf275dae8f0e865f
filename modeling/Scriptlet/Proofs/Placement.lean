import Scriptlet.Proofs.Completion
import Scriptlet.Proofs.Tokens

/-!
Where frames stand in a script. What has been read of a script is known by the kinds of its last
tokens; each frame begins behind tokens that suit it and ends behind one that can end a statement.
So a name that is assigned to stands at the start of a statement or in the header of a loop, with
its operator behind it, and nothing but such names and declarations ever touches the scopes.
-/

namespace Scriptlet

/-! ### Places in a script -/

namespace Token

def trail (ts : List Token) : List Token.Kind := (ts.reverse.map (·.kind)).filter (· ≠ .newline)

theorem trail_append (ts us : List Token) : trail (ts ++ us) = trail us ++ trail ts := by
  simp [trail]

theorem trail_gap {gap : List Token} (h : ∀ t ∈ gap, t.kind = .newline) : trail gap = [] := by
  simpa [trail] using h

/-- Whether a statement can begin behind a token of this kind: it ends a statement or a part of one,
or has a statement behind it. -/
def Kind.settles : Token.Kind → Bool
  | .semicolon | .lbrace | .rbrace | .rparen | .elseWord | .identifier | .literal | .bump _
  | .returnWord => true
  | _ => false

def Settled : List Token.Kind → Prop
  | [] => True
  | kind :: _ => kind.settles = true

theorem settled_cons {kind : Token.Kind} {trail : List Token.Kind} (h : kind.settles = true) :
    Settled (kind :: trail) := h

def InHeader : List Token.Kind → Prop
  | .semicolon :: _ | .lparen :: .forWord :: _ => True
  | _ => False

/-- Among the tokens is an assignment to a name, `x++` or `x--`: the name stands where a statement
can begin, and the operator behind it. In the header of a loop newlines may stand between them. -/
def Assigns (ts : List Token) (name : String) : Prop :=
  ∃ before gap op after, ts = before ++ ⟨.identifier, name⟩ :: (gap ++ op :: after) ∧
    (∀ t ∈ gap, t.kind = .newline) ∧ (op.kind = .assign ∨ ∃ o, op.kind = .bump o) ∧
    (gap = [] ∧ Settled (trail before) ∨ InHeader (trail before))

def onto (t : Token) (trail : List Token.Kind) : List Token.Kind :=
  if t.kind = .newline ∨ t.kind = .eof then trail else t.kind :: trail

theorem onto_of_ne {t : Token} {kind : Token.Kind} (h : t.kind = kind) (trail : List Token.Kind)
    (line : kind ≠ .newline) (more : kind ≠ .eof) : t.onto trail = kind :: trail := by
  simp [onto, h, line, more]

end Token

open Token

namespace Input

variable {ts : List Token} {trail : List Token.Kind}

def Behind (ts : List Token) (trail : List Token.Kind) (i : Input) : Prop :=
  ∃ before, ts = before ++ i.ahead ∧ Token.trail before = trail

def Took (ts : List Token) (trail : List Token.Kind) (t : Token) (i : Input) : Prop :=
  i.putback = none ∧ ∃ before, Token.trail before = trail ∧
    ts = before ++ ((if t.kind = .eof then [] else [t]) ++ i.ahead)

theorem Behind.next {i j : Input} {t : Token} {phase : Phase} (h : i.Behind ts trail)
    (read : i.next phase = (t, j)) : j.Took ts trail t := by
  obtain ⟨before, rfl, rfl⟩ := h
  have empty : j.putback = none := by
    have := i.putback_next phase
    rwa [read] at this
  obtain ⟨gap, all, -, ⟨ends, split⟩ | ⟨more, split⟩⟩ := ahead_next read
  · refine ⟨empty, before ++ gap, ?_, by simp [ends, split]⟩
    rw [trail_append, trail_gap all, List.nil_append]
  · refine ⟨empty, before ++ gap, ?_, by simp [more, split]⟩
    rw [trail_append, trail_gap all, List.nil_append]

theorem Took.behind {i : Input} {t : Token} (h : i.Took ts trail t) :
    i.Behind ts (t.onto trail) := by
  obtain ⟨-, before, rfl, split⟩ := h
  by_cases ends : t.kind = .eof
  · refine ⟨before, by simpa [ends] using split, ?_⟩
    simp [onto, ends]
  · refine ⟨before ++ [t], by simpa [ends] using split, ?_⟩
    by_cases line : t.kind = .newline
    · simp [onto, line, Token.trail]
    · simp [onto, line, ends, Token.trail]

theorem Took.unread {i : Input} {t : Token} (h : i.Took ts trail t) :
    (i.unread t).Behind ts trail := by
  obtain ⟨empty, before, same, split⟩ := h
  refine ⟨before, ?_, same⟩
  rw [ahead_unread, split, ahead_eq_tokens empty]
  by_cases ends : t.kind = .eof <;> simp [ends]

/-- A name at the start of a statement with its operator behind it is assigned to. -/
theorem Took.assigns {i j : Input} {name op : Token} {nl : Bool} (h : i.Took ts trail name)
    (named : name.kind = .identifier) (read : i.next (lookahead nl) = (op, j))
    (operator : op.kind = .assign ∨ ∃ o, op.kind = .bump o)
    (place : if nl then Settled trail else InHeader trail) : Assigns ts name.text := by
  obtain ⟨-, before, rfl, rfl⟩ := h
  have more : op.kind ≠ .eof := by
    rintro ends
    rcases operator with h | ⟨o, h⟩ <;> simp [h] at ends
  obtain ⟨gap, all, straight, ⟨ends, -⟩ | ⟨-, split⟩⟩ := ahead_next read
  · exact absurd ends more
  · have token : name = ⟨.identifier, name.text⟩ := by rw [← named]
    refine ⟨before, gap, op, j.ahead, ?_, all, operator, ?_⟩
    · rw [split, if_neg (by simp [named]), List.singleton_append, ← token]
    · cases nl with
      | true => exact .inl ⟨straight rfl, place⟩
      | false => exact .inr place

end Input

/-! ### What happens to the scopes -/

inductive ScopeStack.Edited (names : String → Prop) (σ : ScopeStack) : ScopeStack → Prop where
  | refl : Edited names σ σ
  | assign {name} (value : String) : names name → Edited names σ (σ.assign name value)
  | setLocal (name value : String) : Edited names σ (σ.setLocal name value)

namespace Act

variable {α β : Type}

def Places (names : String → Prop) (P : Input → Prop) (x : Act α) (Q : α → Input → Prop) : Prop :=
  ∀ scene : Scene, P scene.session.input →
    scene.session.scopes.Edited names (x.on scene).2.session.scopes ∧
    ∀ a last, x.on scene = (.ok a, last) → Q a last.session.input

namespace Places

variable {names : String → Prop} {P : Input → Prop} {Q : β → Input → Prop}

theorem pure {Q : α → Input → Prop} {a : α} (h : ∀ i, P i → Q a i) :
    Places names P (pure a : Act α) Q := by
  refine fun scene here => ⟨.refl, ?_⟩
  rintro _ last ⟨⟩
  exact h _ here

theorem fail {Q : α → Input → Prop} (cause : Fault.Cause) :
    Places names P (fail cause : Act α) Q := by
  refine fun scene _ => ⟨.refl, ?_⟩
  rintro _ _ ⟨⟩

/-- Whatever edits scopes comes last. -/
theorem bind {R : α → Input → Prop} {x : Act α} {f : α → Act β} (still : x.Keeps (·.scopes))
    (hx : Places names P x R) (hf : ∀ a, Places names (R a) (f a) Q) :
    Places names P (x >>= f) Q := by
  intro scene here
  have left := (hx scene here).2
  have same : (x.on scene).2.session.scopes = scene.session.scopes := still scene
  rw [on_bind]
  rcases first : x.on scene with ⟨fault | a, mid⟩
  · rw [first] at same
    refine ⟨?_, by rintro _ _ ⟨⟩⟩
    rw [same]
    exact .refl
  · have same : mid.session.scopes = scene.session.scopes := by rwa [first] at same
    rw [← same]
    exact hf a mid (left a mid first)

theorem finish {x : Act α} {R : Input → Prop} {b : β} (hx : Places names P x fun _ => R)
    (h : ∀ i, R i → Q b i) : Places names P (x >>= fun _ => Pure.pure b) Q := by
  intro scene here
  obtain ⟨edited, left⟩ := hx scene here
  rw [on_bind]
  rcases first : x.on scene with ⟨fault | a, mid⟩
  · rw [first] at edited
    refine ⟨edited, ?_⟩
    rintro _ _ ⟨⟩
  · rw [first] at edited
    refine ⟨edited, ?_⟩
    rintro _ _ ⟨⟩
    exact h _ (left a mid first)

theorem weaken {P' : Input → Prop} {x : Act β} (h : Places names P' x Q) (le : ∀ i, P i → P' i) :
    Places names P x Q :=
  fun scene here => h scene (le _ here)

theorem assuming {p : Prop} {x : Act β} (h : p → Places names P x Q) :
    Places names (fun i => p ∧ P i) x Q :=
  fun scene here => h here.1 scene here.2

theorem ite {p : Prop} [Decidable p] {x y : Act β} (hx : Places names P x Q)
    (hy : Places names P y Q) : Places names P (if p then x else y) Q := by
  split
  · exact hx
  · exact hy

/-- What neither reads nor writes stays in its place. -/
theorem keep_bind {x : Act α} {f : α → Act β}
    (hx : x.Keeps fun s => (s.input, s.scopes)) (hf : ∀ a, Places names P (f a) Q) :
    Places names P (x >>= f) Q := by
  have stays : Places names P x fun _ => P := by
    intro scene here
    have same := Prod.mk.inj (hx scene)
    refine ⟨same.2 ▸ .refl, fun a last h => ?_⟩
    rw [h] at same
    exact same.1 ▸ here
  exact bind (fun scene => (Prod.mk.inj (hx scene)).2) stays hf

theorem session_bind {f : Session → Act β}
    (h : ∀ s : Session, P s.input → Places names P (f s) Q) :
    Places names P (session >>= f) Q := by
  intro scene here
  exact h scene.session here scene here

/-- Editing the scopes is not reading. -/
theorem update {g : Session → Session} (input : ∀ s, (g s).input = s.input)
    (edit : ∀ s : Session, s.scopes.Edited names (g s).scopes) :
    Places names P (update g) fun _ => P := by
  refine fun scene here => ⟨edit scene.session, ?_⟩
  rintro _ _ ⟨⟩
  exact (input scene.session).symm ▸ here

theorem setInput_bind {i : Input} {P' : Input → Prop} {f : Unit → Act β} (there : P' i)
    (h : Places names P' (f ()) Q) :
    Places names P (Act.update (fun s => { s with input := i }) >>= f) Q := by
  have goes : Places names P (Act.update fun s => { s with input := i }) fun _ => P' := by
    refine fun _ _ => ⟨.refl, ?_⟩
    rintro _ _ ⟨⟩
    exact there
  exact bind (fun _ => rfl) goes fun _ => h

theorem read_bind {phase : Phase} {f : Token → Act β}
    (h : ∀ t, Places names (fun j => ∃ i, P i ∧ i.next phase = (t, j)) (f t) Q) :
    Places names P (nextToken phase >>= f) Q := by
  have reads : Places names P (nextToken phase) fun t j => ∃ i, P i ∧ i.next phase = (t, j) := by
    intro scene here
    refine ⟨?_, fun t last taken => ?_⟩
    · rw [on_nextToken rfl]
      exact .refl
    · obtain ⟨input, read, -, rfl⟩ := nextToken_ok taken
      exact ⟨_, here, read⟩
  exact bind (.nextToken (fun _ _ _ => rfl) phase) reads h

section Behind

variable {ts : List Token} {trail : List Token.Kind}

theorem next_bind {phase : Phase} {f : Token → Act β}
    (h : ∀ t, Places names (Input.Took ts trail t) (f t) Q) :
    Places names (Input.Behind ts trail) (nextToken phase >>= f) Q :=
  read_bind fun t => (h t).weaken fun _ ⟨_, here, read⟩ => here.next read

/-- A token that is not put back is left behind. -/
theorem taken {t : Token} {x : Act β} (h : Places names (Input.Behind ts (t.onto trail)) x Q) :
    Places names (Input.Took ts trail t) x Q :=
  h.weaken fun _ took => took.behind

theorem taken_as {t : Token} {kind : Token.Kind} {x : Act β} (found : t.kind = kind)
    (line : kind ≠ .newline) (more : kind ≠ .eof)
    (h : Places names (Input.Behind ts (kind :: trail)) x Q) :
    Places names (Input.Took ts trail t) x Q := by
  refine taken ?_
  rw [onto_of_ne found trail line more]
  exact h

/-- A newline and the end of the script leave no trail. -/
theorem passed {t : Token} {x : Act β} (found : t.kind = .newline ∨ t.kind = .eof)
    (h : Places names (Input.Behind ts trail) x Q) : Places names (Input.Took ts trail t) x Q := by
  refine taken ?_
  rw [onto, if_pos found]
  exact h

theorem unread_bind {t : Token} {f : Unit → Act β}
    (h : Places names (Input.Behind ts trail) (f ()) Q) :
    Places names (Input.Took ts trail t) (unread t >>= f) Q := by
  have back : Places names (Input.Took ts trail t) (unread t) fun _ => Input.Behind ts trail := by
    refine fun scene took => ⟨.refl, ?_⟩
    rintro _ _ ⟨⟩
    exact took.unread
  exact bind (fun _ => rfl) back fun _ => h

theorem expect_bind {phase : Phase} {kind : Token.Kind} {f : Unit → Act β}
    (line : kind ≠ .newline) (more : kind ≠ .eof)
    (h : Places names (Input.Behind ts (kind :: trail)) (f ()) Q) :
    Places names (Input.Behind ts trail) (expect phase kind >>= f) Q := by
  have reads : Places names (Input.Behind ts trail) (expect phase kind) fun _ =>
      Input.Behind ts (kind :: trail) := by
    refine next_bind fun t => ?_
    by_cases found : t.kind = kind
    · rw [if_neg fun other => other found]
      exact taken_as found line more (pure fun _ here => here)
    · rw [if_pos found]
      exact fail _
  refine bind (.bind (.nextToken (fun _ _ _ => rfl) phase) fun t => ?_) reads fun _ => h
  exact .ite (.fail _) (.pure _)

end Behind

end Places

end Act

/-! ### What frames leave behind them -/

def Input.SettledAt (ts : List Token) (i : Input) : Prop :=
  ∃ trail, i.Behind ts trail ∧ Settled trail

namespace Frame

/-- A frame knows its place: a name to be assigned is one of those that the script assigns to, and a
loop resumes its parts where they begin. -/
def Placed (ts : List Token) (f : Frame) : Prop :=
  match f.construct with
  | .simple _ (.assigning name) => Assigns ts name
  | .loop l =>
    (∀ i, l.conditionAt = some i → ∃ trail, i.Behind ts trail) ∧
    (∀ i, l.incrementAt = some i → ∃ trail, i.Behind ts trail ∧ InHeader trail) ∧
    (∀ i, l.bodyAt = some i → i.SettledAt ts) ∧ (∀ i, l.endAt = some i → i.SettledAt ts)
  | _ => True

def Begun (f : Frame) : Prop :=
  match f.construct with
  | .loop l => l.stage ≠ .opening
  | .simple _ stage => stage ≠ .start
  | _ => True

def Ready (f : Frame) (inner : Option Phase) (trail : List Token.Kind) : Prop :=
  match inner with
  | some _ => Settled trail ∧ f.Begun
  | none =>
    match f.construct with
    | .loop { stage := .opening, .. } => ∃ rest, trail = .forWord :: rest
    | .simple nl .start => if nl then Settled trail else InHeader trail
    | .branch .opening | .declarations _ | .call _ .opening | .arguments | .cond _ (.start none)
    | .rel _ (.start none) | .expr _ ⟨.term none, _, _⟩ => True
    | _ => Settled trail

theorem Ready.settled {f : Frame} {inner : Option Phase} {trail : List Token.Kind}
    (ready : f.Ready inner trail) (begun : f.Ready none trail → Settled trail) : Settled trail :=
  match inner with
  | none => begun ready
  | some _ => ready.1

end Frame

def Move.Placed (ts : List Token) : Move → Input → Prop
  | .done _, i => i.SettledAt ts
  | .stay self, i => self.Placed ts ∧ ∃ trail, i.Behind ts trail ∧ self.Ready none trail
  | .push self inner, i =>
    self.Placed ts ∧ self.Begun ∧ inner.Placed ts ∧
      ∃ trail, i.Behind ts trail ∧ inner.Ready none trail
  | .invoke _ _ _, _ => True

namespace Frame

open Act Input

variable {ts : List Token} {trail : List Token.Kind} {flags : Flags}

theorem done_placed {phase : Phase} (settled : Settled trail) :
    Places (Assigns ts) (Behind ts trail) (pure (.done phase)) (Move.Placed ts) :=
  .pure fun _ here => ⟨trail, here, settled⟩

theorem finishTier_placed (settled : Settled trail) (t : Token) (value : String) (phase : Phase) :
    Places (Assigns ts) (Took ts trail t) (finishTier flags t value phase) (Move.Placed ts) := by
  refine .unread_bind (.ite ?_ (done_placed settled))
  exact .keep_bind (.update fun _ => rfl) fun _ => done_placed settled

theorem closeCond_placed (settled : Settled trail) (nl : Bool) (value : String) :
    Places (Assigns ts) (Behind ts trail) (closeCond flags nl value) (Move.Placed ts) := by
  refine .next_bind fun t => ?_
  split
  · exact .taken (.pure fun _ here => ⟨trivial, trivial, trivial, _, here, trivial⟩)
  · exact .taken (.pure fun _ here => ⟨trivial, trivial, trivial, _, here, trivial⟩)
  · exact finishTier_placed settled t value .condDone

theorem stepCond_placed (nl : Bool) (stage : CondStage) (inner : Option Phase)
    (ready : Ready ⟨flags, .cond nl stage⟩ inner trail) :
    Places (Assigns ts) (Behind ts trail) (stepCond flags nl stage) (Move.Placed ts) := by
  cases stage with
  | start seed =>
    refine .pure fun _ here => ⟨trivial, trivial, trivial, trail, here, ?_⟩
    cases seed with
    | none => trivial
    | some t => exact ready.settled id
  | first =>
    have settled : Settled trail := ready.settled id
    rw [stepCond_first]
    refine .keep_bind (.ite (.takeResult fun _ _ => rfl) (.pure "")) fun value => ?_
    exact closeCond_placed settled nl value
  | joining left op settles =>
    have settled : Settled trail := ready.settled id
    have joined : (condValue (.joining left op settles)).Keeps fun s => (s.input, s.scopes) :=
      .ite (.pure _) (.session_bind fun s => .ofExcept _)
    rw [stepCond_joining]
    refine .keep_bind (.ite joined (.pure "")) fun value => ?_
    exact closeCond_placed settled nl value

theorem closeRel_placed (settled : Settled trail) (nl : Bool) (value : String) :
    Places (Assigns ts) (Behind ts trail) (closeRel flags nl value) (Move.Placed ts) := by
  refine .next_bind fun t => ?_
  split
  · refine .ite (.taken (.pure fun _ here => ⟨trivial, trivial, trivial, _, here, trivial⟩)) ?_
    exact finishTier_placed settled t value .relExpDone
  · exact finishTier_placed settled t value .relExpDone

theorem stepRel_placed (nl : Bool) (stage : RelStage) (inner : Option Phase)
    (ready : Ready ⟨flags, .rel nl stage⟩ inner trail) :
    Places (Assigns ts) (Behind ts trail) (stepRel flags nl stage) (Move.Placed ts) := by
  cases stage with
  | start seed =>
    refine .pure fun _ here => ⟨trivial, trivial, trivial, trail, here, ?_⟩
    cases seed with
    | none => trivial
    | some t => exact ready.settled id
  | first =>
    have settled : Settled trail := ready.settled id
    rw [stepRel_first]
    refine .keep_bind (.ite (.takeResult fun _ _ => rfl) (.pure "")) fun value => ?_
    exact closeRel_placed settled nl value
  | joining left op =>
    have settled : Settled trail := ready.settled id
    have joined : (relValue (.joining left op)).Keeps fun s => (s.input, s.scopes) :=
      .session_bind fun s => .bind (.ofExcept _) fun holds => .pure _
    rw [stepRel_joining]
    refine .keep_bind (.ite joined (.pure "")) fun value => ?_
    exact closeRel_placed settled nl value

theorem closeTerm_placed (settled : Settled trail) (nl : Bool) (terms : Terms) (term : String) :
    Places (Assigns ts) (Behind ts trail) (closeTerm flags nl terms term) (Move.Placed ts) := by
  rw [closeTerm_eq]
  refine .keep_bind (.ite (.ofExcept _) (.pure "")) fun value => .next_bind fun t => ?_
  split
  · refine .ite (.taken (.pure fun _ here => ⟨trivial, _, here, trivial⟩)) ?_
    exact finishTier_placed settled t value .exprDone
  · exact finishTier_placed settled t value .exprDone

theorem openTerm_placed (nl : Bool) (terms : Terms) (t : Token)
    (settled : t.kind = .literal ∨ t.kind = .identifier → Settled trail) :
    Places (Assigns ts) (Behind ts trail) (openTerm flags nl terms t) (Move.Placed ts) := by
  unfold openTerm
  split
  · rename_i kind
    exact closeTerm_placed (settled (.inl kind)) nl terms t.text
  · rename_i kind
    refine .ite (.keep_bind (.readVariable _) fun value => ?_) ?_
    · exact closeTerm_placed (settled (.inr kind)) nl terms value
    · exact closeTerm_placed (settled (.inr kind)) nl terms ""
  · exact .pure fun _ here => ⟨trivial, trivial, trivial, _, here, trivial⟩
  · exact .pure fun _ here => ⟨trivial, trivial, trivial, _, here, trivial⟩
  · exact .pure fun _ here => ⟨trivial, _, here, trivial⟩
  · exact .pure fun _ here => ⟨trivial, _, here, trivial⟩
  · exact .fail _

theorem stepExpr_placed (nl : Bool) (terms : Terms) (inner : Option Phase)
    (ready : Ready ⟨flags, .expr nl terms⟩ inner trail) :
    Places (Assigns ts) (Behind ts trail) (stepExpr flags nl terms) (Move.Placed ts) := by
  obtain ⟨stage, left, unary⟩ := terms
  have value : (innerValue flags).Keeps fun s => (s.input, s.scopes) :=
    .ite (.takeResult fun _ _ => rfl) (.pure "")
  cases stage with
  | term seed =>
    cases seed with
    | some t => exact openTerm_placed nl _ t fun _ => ready.settled id
    | none =>
      refine .next_bind fun t => .taken (openTerm_placed nl _ t ?_)
      rintro (kind | kind) <;> rw [onto_of_ne kind _ (by simp) (by simp)] <;> rfl
  | afterParen =>
    refine .expect_bind (by simp) (by simp) (.keep_bind value fun v => ?_)
    exact closeTerm_placed (settled_cons rfl) nl _ v
  | afterCall =>
    exact .keep_bind value fun v => closeTerm_placed (ready.settled id) nl _ v

theorem stepCall_placed (name : String) (stage : CallStage) (inner : Option Phase)
    (ready : Ready ⟨flags, .call name stage⟩ inner trail) :
    Places (Assigns ts) (Behind ts trail) (stepCall flags name stage) (Move.Placed ts) := by
  cases stage with
  | opening =>
    refine .expect_bind (by simp) (by simp) (.ite ?_ ?_)
    · intro scene here
      rw [on_bind, on_session]
      dsimp only
      split
      · refine ⟨.refl, ?_⟩
        rintro _ _ ⟨⟩
        exact ⟨trivial, trivial, trivial, _, here, trivial⟩
      · refine ⟨.refl, ?_⟩
        rintro _ _ ⟨⟩
    · exact .pure fun _ here => ⟨trivial, trivial, trivial, _, here, trivial⟩
  | invoking target =>
    cases target with
    | none => exact done_placed (ready.settled id)
    | some target =>
      refine .session_bind fun s _ => .keep_bind (.emit _) fun _ => ?_
      exact .keep_bind (.update fun _ => rfl) fun _ => .pure fun _ _ => trivial

theorem stepArguments_placed (inner : Option Phase) :
    Places (Assigns ts) (Behind ts trail) (stepArguments flags inner) (Move.Placed ts) := by
  cases inner with
  | none =>
    refine .next_bind fun t => ?_
    split
    · rename_i kind
      exact .taken_as kind (by simp) (by simp) (done_placed (settled_cons rfl))
    · exact .unread_bind (.pure fun _ here => ⟨trivial, trivial, trivial, _, here, trivial⟩)
  | some phase =>
    have next : Places (Assigns ts) (Behind ts trail) (afterArgument flags) (Move.Placed ts) := by
      refine .next_bind fun t => ?_
      split
      · exact .taken (.pure fun _ here => ⟨trivial, trivial, trivial, _, here, trivial⟩)
      · rename_i kind
        exact .taken_as kind (by simp) (by simp) (done_placed (settled_cons rfl))
      · exact .fail _
    refine .ite (.keep_bind ?_ fun _ => next) next
    exact .bind (.takeResult fun _ _ => rfl) fun _ => .update fun _ => rfl

/-! Statements -/

theorem openStatement_placed (settled : Settled trail) (t : Token) :
    Places (Assigns ts) (Took ts trail t) (openStatement flags t) (Move.Placed ts) := by
  have simple : Places (Assigns ts) (Took ts trail t) (do
      unread t
      return Move.push ⟨flags, .statement (.forward true)⟩ ⟨flags, .simple true .start⟩)
      (Move.Placed ts) :=
    .unread_bind (.pure fun _ here => ⟨trivial, trivial, trivial, trail, here, settled⟩)
  unfold openStatement
  split <;> rename_i kind
  · exact .passed (.inl kind) (.pure fun _ here => ⟨trivial, trail, here, settled⟩)
  · exact .taken_as kind (by simp) (by simp) (done_placed (settled_cons rfl))
  · exact .passed (.inr kind) (done_placed settled)
  · exact .taken_as kind (by simp) (by simp) (done_placed (settled_cons rfl))
  · refine .taken_as kind (by simp) (by simp) (.pure fun _ here => ?_)
    exact ⟨trivial, trivial, trivial, .lbrace :: trail, here, rfl⟩
  · exact .taken (.pure fun _ here => ⟨trivial, trivial, trivial, _, here, trivial⟩)
  · refine .taken_as kind (by simp) (by simp) (.pure fun _ here => ?_)
    exact ⟨trivial, trivial, by simp [Placed], _, here, trail, rfl⟩
  · exact .taken (.pure fun _ here => ⟨trivial, trivial, trivial, _, here, trivial⟩)
  · refine .taken_as kind (by simp) (by simp) (.pure fun _ here => ?_)
    exact ⟨trivial, trivial, trivial, .returnWord :: trail, here, rfl⟩
  iterate 6 exact simple
  exact .fail _

theorem terminate_placed (settled : Settled trail) :
    Places (Assigns ts) (Behind ts trail) terminate (Move.Placed ts) := by
  refine .next_bind fun t => ?_
  split <;> rename_i kind
  · exact .taken_as kind (by simp) (by simp) (done_placed (settled_cons rfl))
  · exact .passed (.inl kind) (done_placed settled)
  iterate 3 exact .unread_bind (done_placed settled)
  exact .fail _

theorem stepStatement_placed (stage : StatementStage) (inner : Option Phase)
    (ready : Ready ⟨flags, .statement stage⟩ inner trail) :
    Places (Assigns ts) (Behind ts trail) (stepStatement flags stage inner) (Move.Placed ts) := by
  have settled : Settled trail := ready.settled id
  cases stage with
  | start => exact .next_bind fun t => openStatement_placed settled t
  | forward terminated =>
    exact .ite (done_placed settled) (.ite (terminate_placed settled) (done_placed settled))

theorem bodyReturns_bind_placed {clause : Fault.Clause} {inner : Option Phase} {P : Input → Prop}
    {f : Bool → Act Move} {Q : Move → Input → Prop}
    (h : ∀ returns, Places (Assigns ts) P (f returns) Q) :
    Places (Assigns ts) P (bodyReturns clause inner >>= f) Q := by
  unfold bodyReturns
  split
  · exact h true
  iterate 3 exact .bind (R := fun _ _ => False) (.fail _) (.fail _) fun _ _ no => no.elim
  · exact h false

theorem stepBranch_placed (stage : BranchStage) (inner : Option Phase)
    (ready : Ready ⟨flags, .branch stage⟩ inner trail) :
    Places (Assigns ts) (Behind ts trail) (stepBranch flags stage inner) (Move.Placed ts) := by
  cases stage with
  | opening =>
    refine .expect_bind (by simp) (by simp) ?_
    exact .pure fun _ here => ⟨trivial, trivial, trivial, _, here, trivial⟩
  | afterCondition =>
    refine .session_bind fun s _ => .expect_bind (by simp) (by simp) (.pure fun _ here => ?_)
    exact ⟨trivial, trivial, trivial, .rparen :: trail, here, rfl⟩
  | afterThen taken =>
    have settled : Settled trail := ready.settled id
    refine bodyReturns_bind_placed fun returns => .ite (done_placed settled) ?_
    exact .pure fun _ here => ⟨trivial, trail, here, settled⟩
  | seekElse taken =>
    have settled : Settled trail := ready.settled id
    refine .next_bind fun t => ?_
    split <;> rename_i kind
    · exact .passed (.inl kind) (.pure fun _ here => ⟨trivial, trail, here, settled⟩)
    · refine .taken_as kind (by simp) (by simp) (.pure fun _ here => ?_)
      exact ⟨trivial, trivial, trivial, .elseWord :: trail, here, rfl⟩
    · exact .unread_bind (done_placed settled)
  | afterElse =>
    have settled : Settled trail := ready.settled id
    exact bodyReturns_bind_placed fun returns => .ite (done_placed settled) (done_placed settled)

/-! Loops -/

section Loop

variable {l : Loop} (placed : Placed ts ⟨flags, .loop l⟩)
include placed

theorem startBody_placed (settled : Settled trail) :
    Places (Assigns ts) (Behind ts trail) (startBody flags l) (Move.Placed ts) := by
  refine .session_bind fun s there => .pure fun _ here => ⟨?_, nofun, trivial, trail, here, settled⟩
  obtain ⟨condition, increment, -, last⟩ := placed
  refine ⟨condition, increment, ?_, last⟩
  rintro _ ⟨⟩
  exact ⟨trail, there, settled⟩

theorem startIncrement_placed (header : InHeader trail) :
    Places (Assigns ts) (Behind ts trail) (startIncrement flags l) (Move.Placed ts) := by
  refine .session_bind fun s there => .next_bind fun t => ?_
  split
  · rename_i kind
    exact .taken_as kind (by simp) (by simp) (startBody_placed placed (settled_cons rfl))
  · refine .unread_bind (.pure fun _ here => ⟨?_, nofun, trivial, trail, here, header⟩)
    obtain ⟨condition, -, body, last⟩ := placed
    refine ⟨condition, ?_, body, last⟩
    rintro _ ⟨⟩
    exact ⟨trail, there, header⟩

theorem startCondition_placed :
    Places (Assigns ts) (Behind ts trail) (startCondition flags l) (Move.Placed ts) := by
  refine .session_bind fun s there => .next_bind fun t => ?_
  split
  · rename_i kind
    refine .taken_as kind (by simp) (by simp) (startIncrement_placed ?_ trivial)
    exact placed
  · refine .unread_bind (.pure fun _ here => ⟨?_, nofun, trivial, trail, here, trivial⟩)
    obtain ⟨-, increment, body, last⟩ := placed
    refine ⟨?_, increment, body, last⟩
    rintro _ ⟨⟩
    exact ⟨trail, there⟩

theorem repeatBody_placed (settled : Settled trail) :
    Places (Assigns ts) (Behind ts trail) (repeatBody flags l) (Move.Placed ts) := by
  have kept : Placed ts ⟨flags, .loop { l with stage := .afterBody }⟩ := placed
  unfold repeatBody resume
  split
  · rename_i input there
    obtain ⟨trail, here, settled⟩ := placed.2.2.1 input there
    exact .setInput_bind here (.pure fun _ here => ⟨kept, nofun, trivial, trail, here, settled⟩)
  · exact .pure fun _ here => ⟨kept, nofun, trivial, trail, here, settled⟩

theorem checkCondition_placed (settled : Settled trail) :
    Places (Assigns ts) (Behind ts trail) (checkCondition flags l) (Move.Placed ts) := by
  have kept : Placed ts ⟨flags, .loop { l with stage := .afterLoopCondition }⟩ := placed
  refine .ite ?_ (repeatBody_placed placed settled)
  unfold resume
  split
  · rename_i input there
    obtain ⟨trail, here⟩ := placed.1 input there
    exact .setInput_bind here (.pure fun _ here => ⟨kept, nofun, trivial, trail, here, trivial⟩)
  · exact .pure fun _ here => ⟨kept, nofun, trivial, trail, here, trivial⟩

theorem leaveLoop_placed (settled : Settled trail) :
    Places (Assigns ts) (Behind ts trail) (leaveLoop l) (Move.Placed ts) := by
  unfold leaveLoop resume
  split
  · rename_i input there
    obtain ⟨trail, here, settled⟩ := placed.2.2.2 input there
    exact .setInput_bind here (done_placed settled)
  · exact done_placed settled

theorem afterBody_placed (settled : Settled trail) :
    Places (Assigns ts) (Behind ts trail) (afterBody flags l) (Move.Placed ts) := by
  refine .session_bind fun s there => ?_
  have kept : Placed ts ⟨flags, .loop { l with endAt := l.endAt.or (some s.input) }⟩ := by
    obtain ⟨condition, increment, body, last⟩ := placed
    refine ⟨condition, increment, body, fun i found => ?_⟩
    rcases Option.or_eq_some_iff.mp found with old | ⟨-, new⟩
    · exact last i old
    · cases new
      exact ⟨trail, there, settled⟩
  refine .ite (leaveLoop_placed kept settled) ?_
  split
  · rename_i some
    obtain ⟨input, there⟩ := Option.isSome_iff_exists.mp some
    obtain ⟨trail, here, header⟩ := placed.2.1 input there
    have resumes : resume l.incrementAt = update fun s => { s with input } := by rw [there]; rfl
    rw [resumes]
    exact .setInput_bind here (.pure fun _ here => ⟨kept, nofun, trivial, trail, here, header⟩)
  · exact checkCondition_placed kept settled

theorem stepLoop_placed (inner : Option Phase) (ready : Ready ⟨flags, .loop l⟩ inner trail) :
    Places (Assigns ts) (Behind ts trail) (stepLoop flags l inner) (Move.Placed ts) := by
  have settled : l.stage ≠ .opening → Settled trail := by
    intro begun
    obtain ⟨stage, _, _, _, _, _⟩ := l
    cases inner with
    | some phase => exact ready.1
    | none => cases stage <;> first | exact absurd rfl begun | exact ready
  unfold stepLoop
  split <;> rename_i stage
  · obtain ⟨rest, rfl⟩ : ∃ rest, trail = .forWord :: rest := by
      obtain ⟨_, _, _, _, _, _⟩ := l
      obtain rfl := stage
      cases inner with
      | some phase => exact absurd rfl ready.2
      | none => exact ready
    refine .expect_bind (by simp) (by simp) (.next_bind fun t => ?_)
    split
    · exact .taken (startCondition_placed placed)
    · exact .taken (.pure fun _ here => ⟨placed, nofun, trivial, _, here, trivial⟩)
    · exact .unread_bind (.pure fun _ here => ⟨placed, nofun, trivial, _, here, trivial⟩)
  · exact .expect_bind (by simp) (by simp) (startCondition_placed placed)
  · refine .session_bind fun s _ => .expect_bind (by simp) (by simp) ?_
    exact startIncrement_placed (l := { l with running := _ }) placed trivial
  · exact .expect_bind (by simp) (by simp) (startBody_placed placed (settled_cons rfl))
  · have settled := settled (by simp [stage])
    refine bodyReturns_bind_placed fun returns => .ite (done_placed settled) ?_
    exact afterBody_placed placed settled
  · exact checkCondition_placed placed (settled (by simp [stage]))
  · have settled := settled (by simp [stage])
    refine .session_bind fun s _ => .ite ?_ (leaveLoop_placed placed settled)
    exact repeatBody_placed (l := { l with running := true }) placed settled

end Loop

theorem bumpVariable_placed {P : Input → Prop} (op : Operator) {name : String}
    (assigned : Assigns ts name) :
    Places (Assigns ts) P (bumpVariable op name) fun _ => P := by
  refine .keep_bind (.readVariable name) fun v => .keep_bind (.ofExcept _) fun value => ?_
  exact .update (fun _ => rfl) fun s => .assign value assigned

theorem stepSimple_placed (nl : Bool) (stage : SimpleStage) (inner : Option Phase)
    (placed : Placed ts ⟨flags, .simple nl stage⟩)
    (ready : Ready ⟨flags, .simple nl stage⟩ inner trail) :
    Places (Assigns ts) (Behind ts trail) (stepSimple flags nl stage) (Move.Placed ts) := by
  cases stage with
  | start =>
    have place : if nl then Settled trail else InHeader trail := by
      cases inner with
      | none => exact ready
      | some phase => exact absurd rfl ready.2
    refine .next_bind fun t => ?_
    split
    · exact .unread_bind (.pure fun _ here => ⟨trivial, nofun, trivial, trail, here, trivial⟩)
    · rename_i name
      have named : t.kind = .identifier := by simpa using name
      have ontoName : t.onto trail = .identifier :: trail :=
        onto_of_ne named trail (by simp) (by simp)
      have reads : ∀ (behind : Token) (j : Input), (∃ i : Input,
          i.Took ts trail t ∧ i.next (lookahead nl) = (behind, j)) →
          (behind.kind = .assign ∨ (∃ o, behind.kind = .bump o) → Assigns ts t.text) ∧
            j.Took ts (.identifier :: trail) behind := fun behind j ⟨i, took, read⟩ =>
        ⟨fun op => took.assigns named read op place, ontoName ▸ took.behind.next read⟩
      refine .read_bind fun behind => .weaken (.assuming fun assigned => ?_) (reads behind)
      split <;> rename_i kind
      · refine .taken (.pure fun _ here => ?_)
        exact ⟨assigned (.inl kind), nofun, trivial, _, here, trivial⟩
      · rename_i op
        refine .taken_as kind (by simp) (by simp) (.ite ?_ (done_placed (settled_cons rfl)))
        refine .finish (bumpVariable_placed op (assigned (.inr ⟨op, kind⟩))) fun _ here => ?_
        exact ⟨_, here, settled_cons rfl⟩
      · refine .unread_bind (.pure fun _ here => ?_)
        exact ⟨trivial, nofun, trivial, .identifier :: trail, here, rfl⟩
  | assigning name =>
    have settled : Settled trail := ready.settled id
    refine .ite (.finish (.update (fun _ => rfl) fun s => ?_) fun _ here => ?_)
      (done_placed settled)
    · exact .assign s.result placed
    · exact ⟨trail, here, settled⟩
  | valued =>
    have settled : Settled trail := ready.settled id
    exact done_placed settled

theorem stepDeclarations_placed (nl : Bool) (inner : Option Phase)
    (ready : Ready ⟨flags, .declarations nl⟩ inner trail) :
    Places (Assigns ts) (Behind ts trail) (stepDeclarations flags nl inner) (Move.Placed ts) := by
  have declare : ∀ trail, Places (Assigns ts) (Behind ts trail) (do
      let t ← nextToken .decList
      if t.kind ≠ .identifier then fail (.expectedName t)
      return Move.push ⟨flags, .declarations nl⟩ ⟨flags, .declaration nl t.text⟩)
      (Move.Placed ts) := by
    intro trail
    refine .next_bind fun t => ?_
    split
    · exact .bind (R := fun _ _ => False) (.fail _) (.fail _) fun _ _ no => no.elim
    · rename_i name
      have kind : t.kind = .identifier := by simpa using name
      refine .taken_as kind (by simp) (by simp) (.pure fun _ here => ?_)
      exact ⟨trivial, trivial, trivial, .identifier :: trail, here, rfl⟩
  cases inner with
  | none => exact declare trail
  | some phase =>
    exact .next_bind fun t => .ite (.taken (declare _)) (.unread_bind (done_placed ready.1))

theorem stepDeclaration_placed (nl : Bool) (name : String) (inner : Option Phase)
    (ready : Ready ⟨flags, .declaration nl name⟩ inner trail) :
    Places (Assigns ts) (Behind ts trail) (stepDeclaration flags nl name inner)
      (Move.Placed ts) := by
  have settled : Settled trail := ready.settled id
  have bound : ∀ value, Places (Assigns ts) (Behind ts trail) (do
      if flags.executes then update (·.setLocal name value)
      return Move.done .decDone) (Move.Placed ts) := by
    intro value
    refine .ite (.finish (.update (fun _ => rfl) fun s => ?_) fun _ here => ?_)
      (done_placed settled)
    · exact .setLocal name value
    · exact ⟨trail, here, settled⟩
  cases inner with
  | none =>
    refine .next_bind fun t => .ite ?_ (.unread_bind (bound ""))
    exact .taken (.pure fun _ here => ⟨trivial, trivial, trivial, _, here, trivial⟩)
  | some phase => exact .session_bind fun s _ => bound s.result

theorem stepReturning_placed (inner : Option Phase)
    (ready : Ready ⟨flags, .returning⟩ inner trail) :
    Places (Assigns ts) (Behind ts trail) (stepReturning flags inner) (Move.Placed ts) := by
  have settled : Settled trail := ready.settled id
  cases inner with
  | some phase => exact done_placed settled
  | none =>
    refine .next_bind fun t => .unread_bind ?_
    split
    iterate 4
      exact .ite (.keep_bind (.update fun _ => rfl) fun _ => done_placed settled)
        (done_placed settled)
    exact .pure fun _ here => ⟨trivial, trivial, trivial, trail, here, trivial⟩

/-- A frame other than that of a block edits scopes as the script says, and leaves those that act
next in their places. -/
theorem step_placed {f : Frame} {inner : Option Phase} (placed : f.Placed ts)
    (ready : f.Ready inner trail) (other : ∀ scope, f.construct ≠ .block scope) :
    Places (Assigns ts) (Behind ts trail) (f.step inner) (Move.Placed ts) := by
  obtain ⟨flags, construct⟩ := f
  cases construct with
  | statement stage => exact stepStatement_placed stage inner ready
  | block scope => exact absurd rfl (other scope)
  | branch stage => exact stepBranch_placed stage inner ready
  | loop l => exact stepLoop_placed placed inner ready
  | simple nl stage => exact stepSimple_placed nl stage inner placed ready
  | declarations nl => exact stepDeclarations_placed nl inner ready
  | declaration nl name => exact stepDeclaration_placed nl name inner ready
  | returning => exact stepReturning_placed inner ready
  | cond nl stage => exact stepCond_placed nl stage inner ready
  | rel nl stage => exact stepRel_placed nl stage inner ready
  | expr nl terms => exact stepExpr_placed nl terms inner ready
  | call name stage => exact stepCall_placed name stage inner ready
  | arguments => exact stepArguments_placed inner

end Frame

end Scriptlet
