import Scriptlet.Proofs.Outcome

/-!
Expressions are evaluated as their trees say. Each tier is followed from its first token to the
place where it looks for an operator: what comes before is an evaluation, and what comes behind is
the same for any operand that has the same value. A frame that only reads is the case of an
evaluation that does nothing.
-/

namespace Scriptlet

variable {H α β : Type}

namespace Session

/-- The session has read on. The result is scratch space while something is executed. -/
def Moved (exe : Bool) (s s' : Session) : Prop :=
  ∃ input token result, s' = { s with input, token, result } ∧ (exe = false → result = s.result)

def Spoiled (s s' : Session) : Prop :=
  ∃ input token result call depth, s' = { s with input, token, result, call, depth }

variable {exe : Bool} {a b c : Session}

theorem Moved.refl (s : Session) : s.Moved exe s := ⟨s.input, s.token, s.result, rfl, fun _ => rfl⟩

theorem Moved.trans (h : a.Moved exe b) (k : b.Moved exe c) : a.Moved exe c := by
  obtain ⟨_, _, _, rfl, keep⟩ := h
  obtain ⟨input, token, result, rfl, keep'⟩ := k
  exact ⟨input, token, result, rfl, fun off => (keep' off).trans (keep off)⟩

theorem Moved.spoiled (h : a.Moved exe b) (k : b.Spoiled c) : a.Spoiled c := by
  obtain ⟨_, _, _, rfl, _⟩ := h
  obtain ⟨input, token, result, call, depth, rfl⟩ := k
  exact ⟨input, token, result, call, depth, rfl⟩

theorem Spoiled.refl (s : Session) : s.Spoiled s := ⟨s.input, s.token, s.result, s.call, s.depth, rfl⟩

def env (s : Session) (natives : Natives) : Env := ⟨s.scopes, s.functions, natives⟩

end Session

namespace Evaluation

def when [Inhabited α] (exe : Bool) (ev : Evaluation α) : Evaluation α :=
  if exe then ev else pure default

@[simp] theorem when_true [Inhabited α] (ev : Evaluation α) : ev.when true = ev := rfl

@[simp] theorem when_false [Inhabited α] (ev : Evaluation α) : ev.when false = pure default := rfl

theorem when_bind [Inhabited α] [Inhabited β] (exe : Bool) (ev : Evaluation α)
    (f : α → Evaluation β) :
    (ev >>= f).when exe = ev.when exe >>= fun value => (f value).when exe := by
  cases exe <;> simp

end Evaluation

/-- From `s`, what `x` does comes to the evaluation `ev` and then to `y`, at a place where `phase`
reads the same as from `j`. -/
structure Leads (host : Host H) (name : String) (phase : Phase) (exe : Bool) (x : Act Move)
    (s : Session) (ev : Evaluation α) (y : α → Act Move) (j : Input) : Prop where
  ok : ∀ {a}, ev.outcome = .ok a → ∃ s', s.Moved exe s' ∧ s'.input.next phase = j.next phase ∧
    ∀ {r last calls}, Runs host name (y a) s' r last calls →
      Runs host name x s r last (ev.calls ++ calls)
  error : ∀ {cause}, ev.outcome = .error cause →
    ∃ s', s.Spoiled s' ∧ Runs host name x s (.error cause) s' ev.calls

/-- The frame completes in `phase` with the value of `ev` as the result, behind the token `t`. -/
structure Yields (host : Host H) (f : Frame) (phase : Phase) (s : Session) (ev : Evaluation String)
    (t : Token) (input : Input) : Prop where
  ok : ∀ {value}, ev.outcome = .ok value → Runs host f.name (f.step none) s.enter (.ok phase)
    { s with
      input
      token := t
      result := if f.flags.executes then value else s.result } ev.calls
  error : ∀ {cause}, ev.outcome = .error cause →
    ∃ s', s.Spoiled s' ∧ Runs host f.name (f.step none) s.enter (.error cause) s' ev.calls

namespace Leads

variable {host : Host H} {name : String} {phase : Phase} {exe : Bool} {x : Act Move} {s s₁ : Session}
  {ev : Evaluation α} {y : α → Act Move} {i j : Input}

theorem pure {a : α} (h : s.input.next phase = j.next phase) :
    Leads host name phase exe (y a) s (Pure.pure a : Evaluation α) y j where
  ok := by
    rintro _ ⟨⟩
    exact ⟨s, .refl s, h, fun run => run⟩
  error := by
    rintro _ ⟨⟩

theorem fail {cause : Fault.Cause} (h : x.Fails s cause s) :
    Leads host name phase exe x s (.fail cause : Evaluation α) y j where
  ok := by
    rintro _ ⟨⟩
  error := by
    rintro _ ⟨⟩
    exact ⟨s, .refl s, .fails h⟩

/-- Something done first that only moves the session on. -/
theorem gives {x : Act β} {f : β → Act Move} {b : β} (h : x.Gives s b s₁) (moved : s.Moved exe s₁)
    (k : Leads host name phase exe (f b) s₁ ev y j) :
    Leads host name phase exe (x >>= f) s ev y j where
  ok := by
    intro a hev
    obtain ⟨s₂, moved', place, rest⟩ := k.ok hev
    exact ⟨s₂, moved.trans moved', place, fun run => (rest run).gives h⟩
  error := by
    intro cause hev
    obtain ⟨s', spoiled, run⟩ := k.error hev
    exact ⟨s', moved.spoiled spoiled, run.gives h⟩

theorem moves {move : Move} (h : x.Gives s move s₁) (moved : s.Moved exe s₁)
    (k : Leads host name phase exe (Pure.pure move) s₁ ev y j) :
    Leads host name phase exe x s ev y j := by
  have whole : Leads host name phase exe (x >>= Pure.pure) s ev y j := gives h moved k
  rwa [bind_pure] at whole

theorem stay {self : Frame} (called : self.name = name)
    (h : Leads host name phase exe (self.step none) s ev y j) :
    Leads host name phase exe (Pure.pure (.stay self)) s ev y j where
  ok := by
    subst called
    intro a hev
    obtain ⟨s₁, moved, place, rest⟩ := h.ok hev
    exact ⟨s₁, moved, place, fun run => (rest run).stay⟩
  error := by
    subst called
    intro cause hev
    obtain ⟨s', spoiled, run⟩ := h.error hev
    exact ⟨s', spoiled, run.stay⟩

/-- One evaluation after another. -/
theorem bind {f : α → Evaluation β} {z : β → Act Move}
    (h : Leads host name phase exe x s ev y i)
    (k : ∀ a s', s.Moved exe s' → s'.input.next phase = i.next phase →
      Leads host name phase exe (y a) s' (f a) z j) :
    Leads host name phase exe x s (ev >>= f) z j := by
  cases hev : ev.outcome with
  | error cause =>
    rw [Evaluation.bind_error hev]
    refine ⟨by rintro _ ⟨⟩, ?_⟩
    rintro _ ⟨⟩
    exact h.error hev
  | ok a =>
    obtain ⟨s', moved, place, rest⟩ := h.ok hev
    have next := k a s' moved place
    rw [Evaluation.bind_ok hev]
    constructor
    · intro b hb
      obtain ⟨s₂, moved', place', rest'⟩ := next.ok hb
      refine ⟨s₂, moved.trans moved', place', fun run => ?_⟩
      rw [List.append_assoc]
      exact rest (rest' run)
    · intro cause hcause
      obtain ⟨s₂, spoiled, run⟩ := next.error hcause
      exact ⟨s₂, moved.spoiled spoiled, rest run⟩

/-- A frame that pushes another one goes on with the value that one yields. -/
theorem push {self child : Frame} {inside : Phase} {t : Token} {value : Evaluation String}
    {f : String → Evaluation α} (called : self.name = name) (room : s.depth < s.limits.maxDepth)
    (scans : exe = false → child.flags.executes = false)
    (h : Yields host child inside s value t i)
    (k : ∀ v, value.outcome = .ok v → Leads host name phase exe (self.step (some inside))
      { s with
        input := i
        token := t
        result := if child.flags.executes then v else s.result } (f v) y j) :
    Leads host name phase exe (Pure.pure (.push self child)) s (value >>= f) y j := by
  subst called
  cases hvalue : value.outcome with
  | error cause =>
    obtain ⟨s', spoiled, run⟩ := h.error hvalue
    rw [Evaluation.bind_error hvalue]
    refine ⟨by rintro _ ⟨⟩, ?_⟩
    rintro _ ⟨⟩
    exact ⟨s', spoiled, run.push_fails room⟩
  | ok v =>
    have inner := h.ok hvalue
    have next := k v hvalue
    have moved : s.Moved exe { s with
        input := i
        token := t
        result := if child.flags.executes then v else s.result } := by
      refine ⟨_, _, _, rfl, fun off => ?_⟩
      simp [scans off]
    rw [Evaluation.bind_ok hvalue]
    constructor
    · intro a ha
      obtain ⟨s₂, moved', place, rest⟩ := next.ok ha
      refine ⟨s₂, moved.trans moved', place, fun run => ?_⟩
      rw [List.append_assoc]
      exact inner.push room (rest run)
    · intro cause hcause
      obtain ⟨s₂, spoiled, run⟩ := next.error hcause
      exact ⟨s₂, moved.spoiled spoiled, inner.push room run⟩

/-- A tier that comes to its end yields its value. -/
theorem yields {f : Frame} {done : Phase} {ev : Evaluation String} {y : String → Act Move}
    {t : Token} {behind : Input}
    (h : Leads host f.name phase f.flags.executes (f.step none) s.enter ev y j)
    (next : j.next phase = (t, behind))
    (close : ∀ v s', s'.input.next phase = (t, behind) → (y v).Gives s' (.done done)
      { s' with
        input := behind.unread t
        token := t
        result := if f.flags.executes then v else s'.result }) :
    Yields host f done s ev t (behind.unread t) := by
  constructor
  · intro v hev
    obtain ⟨_, ⟨input, token, result, rfl, keep⟩, place, rest⟩ := h.ok hev
    have last := rest (.moves (close v _ (place.trans next)) (.done done _))
    rw [List.append_nil] at last
    cases exe : f.flags.executes with
    | true =>
      rw [exe] at last
      exact last
    | false =>
      obtain rfl : result = s.result := keep exe
      rw [exe] at last
      exact last
  · intro cause hev
    obtain ⟨s', ⟨input, token, result, call, depth, rfl⟩, run⟩ := h.error hev
    exact ⟨_, ⟨input, token, result, call, depth, rfl⟩, run⟩

end Leads

/-! ### Where a tier ends -/

namespace Token.Kind

def endsExpr : Token.Kind → Bool
  | .operator op => !op.isArithmetic
  | _ => true

def endsRel : Token.Kind → Bool
  | .operator op => !op.isArithmetic && !op.isRelational
  | _ => true

def endsCond : Token.Kind → Bool
  | .operator op => !op.isArithmetic && !op.isRelational
  | .logical .and | .logical .or => false
  | _ => true

theorem endsRel_of_endsCond {kind : Token.Kind} (h : kind.endsCond = true) :
    kind.endsRel = true := by
  cases kind with
  | operator op => exact h
  | _ => rfl

theorem endsExpr_of_endsRel {kind : Token.Kind} (h : kind.endsRel = true) :
    kind.endsExpr = true := by
  cases kind with
  | operator op =>
    simp only [endsRel, Bool.and_eq_true] at h
    exact h.1
  | _ => rfl

end Token.Kind

namespace Frame

open Act

variable {flags : Flags} {nl : Bool} {s : Session} {t : Token} {behind : Input}

theorem gives_finishTier (t : Token) (value : String) (phase : Phase) (s : Session) :
    (finishTier flags t value phase).Gives s (.done phase)
      { s with
        input := s.input.unread t
        result := if flags.executes then value else s.result } := by
  refine (gives_update _ s).bind ?_
  cases exe : flags.executes with
  | true =>
    simp only [if_true]
    exact (gives_update _ _).bind (gives_pure _ _)
  | false =>
    simp only [Bool.false_eq_true, if_false]
    exact gives_pure _ _

section Ends

variable (next : s.input.next (lookahead nl) = (t, behind)) (valid : t.kind ≠ .error)
include next valid

theorem closeExpr_ends (ends : t.kind.endsExpr = true) (value : String) :
    (closeExpr flags nl value).Gives s (.done .exprDone)
      { s with
        input := behind.unread t
        token := t
        result := if flags.executes then value else s.result } := by
  refine (gives_nextToken next valid).bind ?_
  have finish : (finishTier flags t value .exprDone).Gives _ _ _ :=
    gives_finishTier t value .exprDone { s with input := behind, token := t }
  split
  · rename_i op hop
    have other : op.isArithmetic = false := by simpa [hop, Token.Kind.endsExpr] using ends
    simpa [other] using finish
  · exact finish

theorem closeRel_ends (ends : t.kind.endsRel = true) (value : String) :
    (closeRel flags nl value).Gives s (.done .relExpDone)
      { s with
        input := behind.unread t
        token := t
        result := if flags.executes then value else s.result } := by
  refine (gives_nextToken next valid).bind ?_
  have finish : (finishTier flags t value .relExpDone).Gives _ _ _ :=
    gives_finishTier t value .relExpDone { s with input := behind, token := t }
  split
  · rename_i op hop
    have other : op.isArithmetic = false ∧ op.isRelational = false := by
      simpa [hop, Token.Kind.endsRel] using ends
    simpa [other.2] using finish
  · exact finish

theorem closeCond_ends (ends : t.kind.endsCond = true) (value : String) :
    (closeCond flags nl value).Gives s (.done .condDone)
      { s with
        input := behind.unread t
        token := t
        result := if flags.executes then value else s.result } := by
  refine (gives_nextToken next valid).bind ?_
  have finish : (finishTier flags t value .condDone).Gives _ _ _ :=
    gives_finishTier t value .condDone { s with input := behind, token := t }
  split
  · rename_i hop
    simp [hop, Token.Kind.endsCond] at ends
  · rename_i hop
    simp [hop, Token.Kind.endsCond] at ends
  · exact finish

end Ends

end Frame

end Scriptlet
