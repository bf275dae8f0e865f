import Scriptlet.Proofs.Completion
import Scriptlet.Proofs.Tokens

/-!
What frames spend. The tokens ahead of a frame bound what it can still do: a frame that stays or has
another one read either takes a token or moves down in a fixed order of constructs, and every
construct that can be repeated takes at least one token. Loops go back in the script, but only where
they are executed.
-/

namespace Scriptlet

def Token.Admitted (loops : Bool) (t : Token) : Prop := loops = false → t.kind ≠ .forWord

/-- The end of the script can be read again and again; any other token is used up. -/
def Token.cost (t : Token) : Nat := if t.kind = .eof then 0 else 1

theorem Token.cost_of_ne {t : Token} (h : t.kind ≠ .eof) : t.cost = 1 := if_neg h

structure Input.Within (loops : Bool) (n : Nat) (i : Input) : Prop where
  admitted : ∀ t ∈ i.ahead, t.Admitted loops
  bounded : i.ahead.length ≤ n

namespace Input

variable {loops : Bool} {n : Nat}

/-- Reading a token brings a reader nearer to the end, unless it is there. -/
theorem Within.next {i j : Input} {t : Token} {phase : Phase} (h : i.Within loops n)
    (read : i.next phase = (t, j)) :
    t.Admitted loops ∧ ∃ m, m + t.cost ≤ n ∧ j.Within loops m := by
  obtain ⟨gap, -, -, found⟩ := ahead_next read
  have admitted : ∀ u ∈ j.ahead, u.Admitted loops := by
    intro u hu
    refine h.admitted u ?_
    rcases found with ⟨-, split⟩ | ⟨-, split⟩ <;> simp [split, hu]
  obtain ⟨ends, split⟩ | ⟨more, split⟩ := found
  · refine ⟨fun _ => by simp [ends], n, by simp [Token.cost, ends], admitted, ?_⟩
    have bounded := h.bounded
    rw [split, List.length_append] at bounded
    omega
  · have bounded := h.bounded
    rw [split, List.length_append, List.length_cons] at bounded
    refine ⟨h.admitted t (by simp [split]), j.ahead.length, ?_, admitted, Nat.le_refl _⟩
    rw [Token.cost_of_ne more]
    omega

theorem Within.unread {i : Input} {t : Token} (h : i.Within loops n) (admitted : t.Admitted loops) :
    (i.unread t).Within loops (n + t.cost) := by
  have inside : ∀ u ∈ i.tokens, u ∈ i.ahead := fun u hu => by simp [ahead, hu]
  have shorter : i.tokens.length ≤ i.ahead.length := by simp [ahead]
  have bounded := h.bounded
  by_cases ends : t.kind = .eof
  · refine ⟨fun u hu => ?_, ?_⟩ <;> rw [ahead_unread, if_pos ends] at *
    · exact h.admitted u (inside u hu)
    · omega
  · refine ⟨fun u hu => ?_, ?_⟩ <;> rw [ahead_unread, if_neg ends] at *
    · rcases List.mem_cons.mp hu with rfl | hu
      · exact admitted
      · exact h.admitted u (inside u hu)
    · rw [Token.cost_of_ne ends, List.length_cons]
      omega

theorem within_ofScript {script : String}
    (loopFree : ∀ t ∈ (ofScript script).tokens, t.kind ≠ .forWord) :
    (ofScript script).Within false (ofScript script).tokens.length := by
  have ahead : (ofScript script).ahead = (ofScript script).tokens := ahead_eq_tokens rfl
  exact ⟨fun t ht _ => loopFree t (ahead ▸ ht), ahead ▸ Nat.le_refl _⟩

end Input

namespace Act

variable {α β : Type}

/-- From an input within `n` tokens a successful action leaves one within some number of them, and
`Q` holds of the answer and that number. -/
def Spends (loops : Bool) (n : Nat) (x : Act α) (Q : α → Nat → Prop) : Prop :=
  ∀ scene : Scene, scene.session.input.Within loops n → ∀ a last, x.on scene = (.ok a, last) →
    ∃ m, last.session.input.Within loops m ∧ Q a m

namespace Spends

variable {loops : Bool} {n : Nat} {Q : β → Nat → Prop}

theorem pure {Q : α → Nat → Prop} {a : α} (h : Q a n) : Spends loops n (pure a : Act α) Q := by
  rintro scene within _ last ⟨⟩
  exact ⟨n, within, h⟩

theorem fail {Q : α → Nat → Prop} (cause : Fault.Cause) :
    Spends loops n (fail cause : Act α) Q := by
  rintro scene _ _ _ ⟨⟩

theorem bind {P : α → Nat → Prop} {x : Act α} {f : α → Act β} (hx : Spends loops n x P)
    (hf : ∀ a m, P a m → Spends loops m (f a) Q) : Spends loops n (x >>= f) Q := by
  intro scene within b last h
  rw [on_bind] at h
  rcases first : x.on scene with ⟨fault | a, mid⟩
  · rw [first] at h
    cases h
  · rw [first] at h
    obtain ⟨m, inside, holds⟩ := hx scene within a mid first
    exact hf a m holds mid inside b last h

theorem ite {p : Prop} [Decidable p] {x y : Act β} (hx : Spends loops n x Q)
    (hy : Spends loops n y Q) : Spends loops n (if p then x else y) Q := by
  split
  · exact hx
  · exact hy

/-- What reads nothing costs nothing. -/
theorem keep_bind {x : Act α} {f : α → Act β} (hx : x.Keeps Session.input)
    (hf : ∀ a, Spends loops n (f a) Q) : Spends loops n (x >>= f) Q := by
  have free : Spends loops n x fun _ m => m = n := by
    intro scene within a last h
    have same := hx scene
    rw [h] at same
    exact ⟨n, by rwa [same], rfl⟩
  refine bind free fun a m same => ?_
  rw [same]
  exact hf a

theorem session_bind {f : Session → Act β}
    (h : ∀ s : Session, s.input.Within loops n → Spends loops n (f s) Q) :
    Spends loops n (session >>= f) Q := by
  have free : Spends loops n session fun s m => m = n ∧ s.input.Within loops n := by
    rintro scene within _ last ⟨⟩
    exact ⟨n, within, rfl, within⟩
  refine bind free fun s m same => ?_
  rw [same.1]
  exact h s same.2

theorem setSession_bind {s : Session} {f : Unit → Act β} (within : s.input.Within loops n)
    (h : Spends loops n (f ()) Q) : Spends loops n (setSession s >>= f) Q :=
  fun _ _ => h _ within

/-- A checkpoint costs what lies ahead of it. -/
theorem setInput_bind {i : Input} {f : Unit → Act β} (within : i.Within loops n)
    (h : Spends loops n (f ()) Q) :
    Spends loops n (update (fun s => { s with input := i }) >>= f) Q :=
  fun _ _ => h _ within

theorem next_bind {phase : Phase} {f : Token → Act β}
    (h : ∀ t m, t.Admitted loops → m + t.cost ≤ n → Spends loops m (f t) Q) :
    Spends loops n (nextToken phase >>= f) Q := by
  have reads : Spends loops n (nextToken phase) fun t m => t.Admitted loops ∧ m + t.cost ≤ n := by
    intro scene within t last taken
    obtain ⟨input, read, -, rfl⟩ := nextToken_ok taken
    obtain ⟨admitted, m, le, inside⟩ := within.next read
    exact ⟨m, inside, admitted, le⟩
  exact bind reads fun t m ⟨admitted, le⟩ => h t m admitted le

theorem unread_bind {t : Token} {f : Unit → Act β} (admitted : t.Admitted loops)
    (h : Spends loops (n + t.cost) (f ()) Q) : Spends loops n (unread t >>= f) Q := by
  have back : Spends loops n (unread t) fun _ m => m = n + t.cost := by
    rintro scene within _ last ⟨⟩
    exact ⟨n + t.cost, within.unread admitted, rfl⟩
  refine bind back fun _ m same => ?_
  rw [same]
  exact h

theorem expect_bind {phase : Phase} {kind : Token.Kind} {f : Unit → Act β}
    (more : kind ≠ .eof) (h : ∀ m, m + 1 ≤ n → Spends loops m (f ()) Q) :
    Spends loops n (expect phase kind >>= f) Q := by
  have reads : Spends loops n (expect phase kind) fun _ m => m + 1 ≤ n := by
    refine next_bind fun t m _ le => ?_
    by_cases found : t.kind = kind
    · rw [if_neg fun other => other found]
      rw [Token.cost_of_ne (by rwa [found])] at le
      exact pure le
    · rw [if_pos found]
      exact fail _
  exact bind reads fun _ m le => h m le

end Spends

end Act

/-! ### What frames spend -/

namespace Frame

/-- Loops are met only where nothing is executed, so they are read once: such a loop does not run,
and it is left where its body ends. -/
def Calm (loops : Bool) (f : Frame) : Prop :=
  (f.flags.executes = true → loops = false) ∧
    match f.construct with
    | .loop l =>
      f.flags.executes = false ∧ l.running = false ∧ l.endAt = none ∧
        l.stage ≠ .afterIncrement ∧ l.stage ≠ .afterLoopCondition
    | _ => True

/-- The order of constructs: without taking a token a frame gives way only to a lower one. A frame
that is resumed after another one has been read may stand lower than at first. -/
def rank (f : Frame) (resumed : Bool) : Nat :=
  match f.construct, resumed with
  | .block _, false => 7
  | .block _, true => 6
  | .cond _ (.start (some _)), _ => 6
  | .rel _ (.start (some _)), _ => 5
  | .statement .start, _ => 5
  | .expr _ ⟨.term (some _), _, _⟩, _ => 4
  | .simple _ .start, _ => 4
  | .returning, false => 4
  | .arguments, false => 4
  | .cond _ (.start none), _ => 3
  | .rel _ (.start none), _ => 2
  | .expr _ ⟨.term none, _, _⟩, _ => 1
  | .branch (.afterThen _), _ => 1
  | _, _ => 0

def measure (f : Frame) (resumed : Bool) (n : Nat) : Nat := 16 * n + f.rank resumed

theorem rank_le (f : Frame) (resumed : Bool) : f.rank resumed ≤ 7 := by
  unfold rank
  split <;> omega

def due (f : Frame) : Nat :=
  match f.construct with
  | .statement .start | .simple _ .start | .cond _ (.start none) | .rel _ (.start none)
  | .expr _ ⟨.term none, _, _⟩ => 1
  | _ => 0

def MayEnd (f : Frame) : Prop := f.construct = .statement .start

def WantsMore (f : Frame) : Prop :=
  ∀ s, ∃ fault scene, f.act (some .eof) s = (.error fault, scene)

/-- What a frame starts from: its measure, the tokens ahead of it, how many of them it has to take,
and whether it may find the end of the script in its place. -/
structure Means where
  limit : Nat
  stock : Nat
  owed : Nat
  mayEnd : Prop

def means (f : Frame) (inner : Option Phase) (n : Nat) : Means :=
  ⟨f.measure inner.isSome n, n, f.due, f.MayEnd⟩

end Frame

def Move.Spends (loops : Bool) (means : Frame.Means) : Move → Nat → Prop
  | .done phase, m => if phase = .eof then means.mayEnd else m + means.owed ≤ means.stock
  | .stay self, m =>
    self.Calm loops ∧ (self.MayEnd → means.mayEnd) ∧ self.measure false m < means.limit ∧
      m + means.owed ≤ means.stock + self.due
  | .push self inner, m =>
    self.Calm loops ∧ inner.Calm loops ∧ ¬ self.MayEnd ∧ (inner.MayEnd → self.WantsMore) ∧
      inner.measure false m < means.limit ∧
      self.measure true m < means.limit + 16 * inner.due ∧
      m + means.owed ≤ means.stock + inner.due
  | .invoke _ _ _, _ => True

namespace Frame

open Act

section Spends

variable {loops : Bool} {flags : Flags} (calm : flags.executes = true → loops = false) {b : Means}
  {n : Nat}

theorem finishTier_spends {t : Token} (admitted : t.Admitted loops) (value : String)
    {phase : Phase} (proper : phase ≠ .eof) (paid : n + t.cost + b.owed ≤ b.stock) :
    Spends loops n (finishTier flags t value phase) (Move.Spends loops b) := by
  have done : (Move.done phase).Spends loops b (n + t.cost) := by
    simpa [Move.Spends, proper] using paid
  refine .unread_bind admitted ?_
  split
  · exact .keep_bind (.update fun _ => rfl) fun _ => .pure done
  · exact .pure done

include calm

theorem calm_of {construct : Construct} (other : ∀ l, construct ≠ .loop l) :
    (⟨flags, construct⟩ : Frame).Calm loops := by
  refine ⟨calm, ?_⟩
  cases construct with
  | loop l => exact absurd rfl (other l)
  | _ => trivial

/-- Behind a token that was taken, any construct may be read. -/
theorem push_taken {self inner : Construct} {flags' : Flags} {m : Nat}
    (calm' : flags'.executes = true → loops = false) (self_other : ∀ l, self ≠ .loop l)
    (inner_other : ∀ l, inner ≠ .loop l) (begun : self ≠ .statement .start)
    (more : inner = .statement .start → (⟨flags, self⟩ : Frame).WantsMore)
    (room : 16 * (m + 1) ≤ b.limit) (paid : m + b.owed ≤ b.stock) :
    (Move.push ⟨flags, self⟩ ⟨flags', inner⟩).Spends loops b m := by
  have low := rank_le ⟨flags', inner⟩ false
  have low' := rank_le ⟨flags, self⟩ true
  refine ⟨calm_of calm self_other, calm_of calm' inner_other, begun, more, ?_, ?_, by omega⟩
  · simp only [measure]
    omega
  · simp only [measure]
    omega

theorem stay_taken {self : Construct} {m : Nat} (other : ∀ l, self ≠ .loop l)
    (begun : self = .statement .start → b.mayEnd)
    (room : 16 * (m + 1) ≤ b.limit) (paid : m + b.owed ≤ b.stock) :
    (Move.stay ⟨flags, self⟩).Spends loops b m := by
  have low := rank_le ⟨flags, self⟩ false
  refine ⟨calm_of calm other, begun, ?_, by omega⟩
  simp only [measure]
  omega

theorem closeCond_spends (nl : Bool) (value : String) (room : 16 * n ≤ b.limit)
    (paid : n + b.owed ≤ b.stock) :
    Spends loops n (closeCond flags nl value) (Move.Spends loops b) := by
  have join : ∀ op m, m + 1 ≤ n → (joinCond flags nl value op).Spends loops b m :=
    fun op m le => push_taken calm (by simp; grind) (by simp) (by simp) (by simp) (by simp)
      (by omega) (by omega)
  refine .next_bind fun t m admitted le => ?_
  split
  · rename_i kind
    exact .pure (join .and m (by simpa [Token.cost, kind] using le))
  · rename_i kind
    exact .pure (join .or m (by simpa [Token.cost, kind] using le))
  · exact finishTier_spends admitted value (by simp) (by omega)

theorem stepCond_spends (nl : Bool) (stage : CondStage) (inner : Option Phase) :
    Spends loops n (stepCond flags nl stage)
      (Move.Spends loops (means ⟨flags, .cond nl stage⟩ inner n)) := by
  cases stage with
  | start seed =>
    refine .pure ⟨calm_of calm (by simp), calm_of calm (by simp), by simp [MayEnd],
      by simp [MayEnd, newRel], ?_⟩
    cases seed with
    | none =>
      simp [means, measure, rank, due, newRel]
      omega
    | some t => simp [means, measure, rank, due, newRel]
  | first =>
    rw [stepCond_first]
    refine .keep_bind (.ite (.takeResult fun _ _ => rfl) (.pure "")) fun value => ?_
    exact closeCond_spends calm nl value (by simp [means, measure]) (by simp [means, due])
  | joining left op settled =>
    have joined : (condValue (.joining left op settled)).Keeps Session.input :=
      .ite (.pure _) (.session_bind fun s => .ofExcept _)
    rw [stepCond_joining]
    refine .keep_bind (.ite joined (.pure "")) fun value => ?_
    exact closeCond_spends calm nl value (by simp [means, measure]) (by simp [means, due])

theorem closeRel_spends (nl : Bool) (value : String) (room : 16 * n ≤ b.limit)
    (paid : n + b.owed ≤ b.stock) :
    Spends loops n (closeRel flags nl value) (Move.Spends loops b) := by
  refine .next_bind fun t m admitted le => ?_
  split
  · rename_i op kind
    rw [Token.cost_of_ne (by simp [kind])] at le
    split
    · exact .pure (push_taken calm calm (by simp) (by simp) (by simp) (by simp) (by omega)
        (by omega))
    · exact finishTier_spends admitted value (by simp) (by simp [Token.cost, kind]; omega)
  · exact finishTier_spends admitted value (by simp) (by omega)

theorem stepRel_spends (nl : Bool) (stage : RelStage) (inner : Option Phase) :
    Spends loops n (stepRel flags nl stage)
      (Move.Spends loops (means ⟨flags, .rel nl stage⟩ inner n)) := by
  cases stage with
  | start seed =>
    refine .pure ⟨calm_of calm (by simp), calm_of calm (by simp), by simp [MayEnd],
      by simp [MayEnd, newExpr], ?_⟩
    cases seed with
    | none =>
      simp [means, measure, rank, due, newExpr]
      omega
    | some t => simp [means, measure, rank, due, newExpr]
  | first =>
    rw [stepRel_first]
    refine .keep_bind (.ite (.takeResult fun _ _ => rfl) (.pure "")) fun value => ?_
    exact closeRel_spends calm nl value (by simp [means, measure]) (by simp [means, due])
  | joining left op =>
    have joined : (relValue (.joining left op)).Keeps Session.input :=
      .session_bind fun s => .bind (.ofExcept _) fun holds => .pure _
    rw [stepRel_joining]
    refine .keep_bind (.ite joined (.pure "")) fun value => ?_
    exact closeRel_spends calm nl value (by simp [means, measure]) (by simp [means, due])

theorem closeTerm_spends (nl : Bool) (terms : Terms) (term : String) (room : 16 * n ≤ b.limit)
    (paid : n + b.owed ≤ b.stock) :
    Spends loops n (closeTerm flags nl terms term) (Move.Spends loops b) := by
  rw [closeTerm_eq]
  refine .keep_bind (.ite (.ofExcept _) (.pure "")) fun value => ?_
  refine .next_bind fun t m admitted le => ?_
  split
  · rename_i op kind
    rw [Token.cost_of_ne (by simp [kind])] at le
    split
    · exact .pure (stay_taken calm (by simp) (by simp) (by omega) (by omega))
    · exact finishTier_spends admitted value (by simp) (by simp [Token.cost, kind]; omega)
  · exact finishTier_spends admitted value (by simp) (by omega)

/-- The token that opens a term was taken before, or handed on. -/
theorem openTerm_spends (nl : Bool) (terms : Terms) (t : Token) (room : 16 * n + 3 < b.limit)
    (paid : n + b.owed ≤ b.stock) :
    Spends loops n (openTerm flags nl terms t) (Move.Spends loops b) := by
  have unary : ∀ u, (Move.stay ⟨flags, .expr nl
      { terms with stage := .term none, unary := u :: terms.unary }⟩).Spends loops b n := by
    intro u
    refine ⟨calm_of calm (by simp), by simp [MayEnd], ?_⟩
    simp only [measure, rank, due]
    omega
  unfold openTerm
  split
  · exact closeTerm_spends calm nl terms _ (by omega) paid
  · split
    · refine .keep_bind (.readVariable _) fun value => ?_
      exact closeTerm_spends calm nl terms value (by omega) paid
    · exact closeTerm_spends calm nl terms "" (by omega) paid
  · refine .pure ⟨calm_of calm (by simp), calm_of calm (by simp), by simp [MayEnd],
      by simp [MayEnd], ?_⟩
    simp only [measure, rank, due]
    omega
  · refine .pure ⟨calm_of calm (by simp), calm_of calm (by simp), by simp [MayEnd],
      by simp [MayEnd, newCond], ?_⟩
    simp only [measure, rank, due, newCond]
    omega
  · exact .pure (unary .minus)
  · exact .pure (unary .not)
  · exact .fail _

theorem stepExpr_spends (nl : Bool) (terms : Terms) (inner : Option Phase) :
    Spends loops n (stepExpr flags nl terms)
      (Move.Spends loops (means ⟨flags, .expr nl terms⟩ inner n)) := by
  obtain ⟨stage, left, unary⟩ := terms
  have value : (innerValue flags).Keeps Session.input := .ite (.takeResult fun _ _ => rfl) (.pure "")
  cases stage with
  | term seed =>
    cases seed with
    | some t =>
      exact openTerm_spends calm nl _ t (by simp [means, measure, rank]) (by simp [means, due])
    | none =>
      refine .next_bind fun t m admitted le => ?_
      by_cases ends : t.kind = .eof
      · simp only [openTerm, ends]
        exact .fail _
      · rw [Token.cost_of_ne ends] at le
        refine openTerm_spends calm nl _ t ?_ (by simpa [means, due])
        simp only [means, measure]
        omega
  | afterParen =>
    refine .expect_bind (by simp) fun m le => .keep_bind value fun v => ?_
    refine closeTerm_spends calm nl _ v ?_ (by simp [means, due]; omega)
    simp only [means, measure]
    omega
  | afterCall =>
    refine .keep_bind value fun v => ?_
    exact closeTerm_spends calm nl _ v (by simp [means, measure]) (by simp [means, due])

theorem stepCall_spends (name : String) (stage : CallStage) (inner : Option Phase) :
    Spends loops n (stepCall flags name stage)
      (Move.Spends loops (means ⟨flags, .call name stage⟩ inner n)) := by
  cases stage with
  | opening =>
    have push : ∀ target m, m + 1 ≤ n →
        (Move.push ⟨flags, .call name (.invoking target)⟩ ⟨flags, .arguments⟩).Spends loops
          (means ⟨flags, .call name .opening⟩ inner n) m := fun target m le =>
      push_taken calm calm (by simp) (by simp) (by simp) (by simp) (by simp [means, measure]; omega)
        (by simp [means, due]; omega)
    refine .expect_bind (by simp) fun m le => ?_
    split
    · refine .session_bind fun s within => ?_
      split
      · exact .setSession_bind within (.pure (push _ m le))
      · exact .fail _
    · exact .pure (push none m le)
  | invoking target =>
    cases target with
    | none => exact .pure (by simp [Move.Spends, means, due])
    | some target =>
      refine .session_bind fun s _ => .keep_bind (.emit _) fun _ => ?_
      exact .keep_bind (.update fun _ => rfl) fun _ => .pure trivial

theorem stepArguments_spends (inner : Option Phase) :
    Spends loops n (stepArguments flags inner)
      (Move.Spends loops (means ⟨flags, .arguments⟩ inner n)) := by
  have done : ∀ m, m ≤ n →
      (Move.done .argListDone).Spends loops (means ⟨flags, .arguments⟩ inner n) m :=
    fun m le => by simpa [Move.Spends, means, due]
  cases inner with
  | none =>
    refine .next_bind fun t m admitted le => ?_
    split
    · exact .pure (done m (by omega))
    · refine .unread_bind admitted (.pure ?_)
      refine ⟨calm_of calm (by simp), calm_of calm (by simp), by simp [MayEnd],
        by simp [MayEnd, newCond], ?_⟩
      simp [means, measure, rank, due, newCond]
      omega
  | some phase =>
    have next : Spends loops n (afterArgument flags)
        (Move.Spends loops (means ⟨flags, .arguments⟩ (some phase) n)) := by
      refine .next_bind fun t m admitted le => ?_
      split
      · rename_i kind
        rw [Token.cost_of_ne (by simp [kind])] at le
        exact .pure (push_taken calm calm (by simp) (by simp) (by simp) (by simp)
          (by simp [means, measure]; omega) (by simp [means, due]; omega))
      · exact .pure (done m (by omega))
      · exact .fail _
    refine .ite (.keep_bind ?_ fun _ => next) next
    exact .bind (.takeResult fun _ _ => rfl) fun _ => .update fun _ => rfl

/-! Statements -/

/-- A loop that is met is not executed. -/
theorem openStatement_spends {t : Token} (admitted : t.Admitted loops) (inner : Option Phase)
    {m : Nat} (le : m + t.cost ≤ n) :
    Spends loops m (openStatement flags t)
      (Move.Spends loops (means ⟨flags, .statement .start⟩ inner n)) := by
  have room : t.kind ≠ .eof → 16 * (m + 1) ≤ (means ⟨flags, .statement .start⟩ inner n).limit ∧
      m + (means ⟨flags, .statement .start⟩ inner n).owed ≤ n := by
    intro more
    rw [Token.cost_of_ne more] at le
    simp only [means, measure, due]
    omega
  have forward : ∀ construct terminated, t.kind ≠ .eof → (∀ l, construct ≠ .loop l) →
      construct ≠ .statement .start →
      (Move.push ⟨flags, .statement (.forward terminated)⟩ ⟨flags, construct⟩).Spends loops
        (means ⟨flags, .statement .start⟩ inner n) m := fun construct terminated more other begun =>
    push_taken calm calm (by simp) other (by simp) (fun same => absurd same begun) (room more).1
      (room more).2
  have simple : Spends loops m (do
      unread t
      return Move.push ⟨flags, .statement (.forward true)⟩ ⟨flags, .simple true .start⟩)
      (Move.Spends loops (means ⟨flags, .statement .start⟩ inner n)) := by
    refine .unread_bind admitted (.pure ?_)
    refine ⟨calm_of calm (by simp), calm_of calm (by simp), by simp [MayEnd], by simp [MayEnd], ?_⟩
    simp [means, measure, rank, due]
    omega
  unfold openStatement
  split <;> rename_i kind
  · have taken := room (by simp [kind])
    exact .pure (stay_taken calm (by simp) (fun _ => rfl) taken.1 taken.2)
  · exact .pure (room (by simp [kind])).2
  · exact .pure (show MayEnd ⟨flags, .statement .start⟩ from rfl)
  · exact .pure (room (by simp [kind])).2
  · exact .pure (forward _ _ (by simp [kind]) (by simp) (by simp))
  · exact .pure (forward _ _ (by simp [kind]) (by simp) (by simp))
  · have off : flags.executes = false := Bool.eq_false_iff.mpr fun exe => admitted (calm exe) kind
    have taken := room (by simp [kind])
    refine .pure ⟨calm_of calm (by simp), ⟨calm, off, rfl, rfl, by simp, by simp⟩, by simp [MayEnd],
      by simp [MayEnd], ?_⟩
    simp only [measure, rank, due]
    simp only [means] at taken ⊢
    omega
  · exact .pure (forward _ _ (by simp [kind]) (by simp) (by simp))
  · exact .pure (forward _ _ (by simp [kind]) (by simp) (by simp))
  iterate 6 exact simple
  exact .fail _

omit calm in
theorem terminate_spends (terminated : Bool) (inner : Option Phase) :
    Spends loops n terminate
      (Move.Spends loops (means ⟨flags, .statement (.forward terminated)⟩ inner n)) := by
  have done : ∀ m, m ≤ n → (Move.done .stmtDone).Spends loops
      (means ⟨flags, .statement (.forward terminated)⟩ inner n) m :=
    fun m le => by simpa [Move.Spends, means, due]
  refine .next_bind fun t m admitted le => ?_
  split
  iterate 2 exact .pure (done m (by omega))
  iterate 3 exact .unread_bind admitted (.pure (done _ le))
  exact .fail _

theorem stepStatement_spends (stage : StatementStage) (inner : Option Phase) :
    Spends loops n (stepStatement flags stage inner)
      (Move.Spends loops (means ⟨flags, .statement stage⟩ inner n)) := by
  cases stage with
  | start => exact .next_bind fun t m admitted le => openStatement_spends calm admitted inner le
  | forward terminated =>
    have done : ∀ phase, phase ≠ .eof → (Move.done phase).Spends loops
        (means ⟨flags, .statement (.forward terminated)⟩ inner n) n :=
      fun phase proper => by simp [Move.Spends, means, due, proper]
    refine .ite (.pure (done _ (by simp))) (.ite ?_ (.pure (done _ (by simp))))
    exact terminate_spends terminated inner

/-- Every statement of a block takes a token, or there is none left and the block fails. -/
theorem stepBlock_spends (scope : Option BlockId) (inner : Option Phase) :
    Spends loops n (stepBlock flags scope inner)
      (Move.Spends loops (means ⟨flags, .block scope⟩ inner n)) := by
  have again : ∀ scope', (Move.push ⟨flags, .block scope'⟩ (newStatement flags)).Spends loops
      (means ⟨flags, .block scope⟩ inner n) n := by
    intro scope'
    refine ⟨calm_of calm (by simp), calm_of calm (by simp), by simp [MayEnd],
      fun _ s => ⟨_, _, rfl⟩, ?_⟩
    cases inner <;> simp [means, measure, rank, due, newStatement]
  have leave : ∀ phase, phase ≠ .eof → Spends loops n (leaveBlock scope phase)
      (Move.Spends loops (means ⟨flags, .block scope⟩ inner n)) := by
    intro phase proper
    have done : (Move.done phase).Spends loops (means ⟨flags, .block scope⟩ inner n) n := by
      simp [Move.Spends, means, due, proper]
    cases scope with
    | none => exact .pure done
    | some id => exact .keep_bind (.closeBlock (fun _ _ => rfl) id) fun _ => .pure done
  cases inner with
  | none =>
    refine .ite ?_ (.pure (again none))
    exact .keep_bind (.openBlock fun _ _ => rfl) fun id => .keep_bind (.emit _) fun _ => .pure (again (some id))
  | some phase =>
    cases phase with
    | stmtDone => exact .pure (again scope)
    | stmtBlockDone => exact leave .stmtBlockDone (by simp)
    | ret => exact leave .ret (by simp)
    | _ => exact .fail _

omit calm in
/-- A clause without a body fails. -/
theorem bodyReturns_bind_spends {clause : Fault.Clause} {inner : Option Phase}
    {f : Bool → Act Move} {Q : Move → Nat → Prop} (h : ∀ returns, Spends loops n (f returns) Q) :
    Spends loops n (bodyReturns clause inner >>= f) Q := by
  unfold bodyReturns
  split
  · exact h true
  iterate 3 exact .bind (P := fun _ _ => False) (.fail _) fun _ _ no => no.elim
  · exact h false

theorem stepBranch_spends (stage : BranchStage) (inner : Option Phase) :
    Spends loops n (stepBranch flags stage inner)
      (Move.Spends loops (means ⟨flags, .branch stage⟩ inner n)) := by
  have body : ∀ (self : BranchStage) (taken : Bool) (m : Nat), m + 1 ≤ n →
      (⟨flags, .branch self⟩ : Frame).WantsMore →
      (Move.push ⟨flags, .branch self⟩ (newStatement (flags.executeIf taken))).Spends loops
        (means ⟨flags, .branch stage⟩ inner n) m := fun self taken m le more =>
    push_taken calm (by simp; grind) (by simp) (by simp) (by simp) (fun _ => more)
      (by simp only [means, measure]; omega) (by simp only [means, due]; omega)
  have done : ∀ phase m, phase ≠ .eof → m ≤ n →
      (Move.done phase).Spends loops (means ⟨flags, .branch stage⟩ inner n) m :=
    fun phase m proper le => by simpa [Move.Spends, means, due, proper]
  cases stage with
  | opening =>
    refine .expect_bind (by simp) fun m le => .pure ?_
    exact push_taken calm calm (by simp) (by simp) (by simp) (by simp)
      (by simp only [means, measure]; omega) (by simp only [means, due]; omega)
  | afterCondition =>
    refine .session_bind fun s _ => .expect_bind (by simp) fun m le => .pure ?_
    exact body _ _ m le fun s => ⟨_, _, rfl⟩
  | afterThen taken =>
    refine bodyReturns_bind_spends fun returns => ?_
    cases returns with
    | true => exact .pure (done _ n (by simp) (Nat.le_refl n))
    | false =>
      refine .pure ⟨calm_of calm (by simp), by simp [MayEnd], ?_⟩
      simp [means, measure, rank, due]
  | seekElse taken =>
    refine .next_bind fun t m admitted le => ?_
    split <;> rename_i kind
    · rw [Token.cost_of_ne (by simp [kind])] at le
      exact .pure (stay_taken calm (by simp) (by simp) (by simp only [means, measure]; omega)
        (by simp only [means, due]; omega))
    · rw [Token.cost_of_ne (by simp [kind])] at le
      exact .pure (body _ _ m le fun s => ⟨_, _, rfl⟩)
    · exact .unread_bind admitted (.pure (done _ _ (by simp) le))
  | afterElse =>
    refine bodyReturns_bind_spends fun returns => ?_
    cases returns with
    | true => exact .pure (done _ n (by simp) (Nat.le_refl n))
    | false => exact .pure (done _ n (by simp) (Nat.le_refl n))

end Spends

/-! A loop that is not executed goes straight through its header and its body. -/

section Loop

variable {loops : Bool} {flags : Flags} (off : flags.executes = false) {b : Means} {n : Nat}
  {l : Loop} (still : l.running = false) (fresh : l.endAt = none)
include off

theorem loop_push {stage : LoopStage} {l : Loop} {inner : Construct} {flags' : Flags} {m : Nat}
    (still : l.running = false) (fresh : l.endAt = none) (off' : flags'.executes = false)
    (other : ∀ l, inner ≠ .loop l) (stages : stage ≠ .afterIncrement ∧ stage ≠ .afterLoopCondition)
    (more : inner = .statement .start → stage = .afterBody)
    (room : 16 * (m + 1) ≤ b.limit) (paid : m + b.owed ≤ b.stock) :
    (Move.push ⟨flags, .loop { l with stage }⟩ ⟨flags', inner⟩).Spends loops b m := by
  have low := rank_le ⟨flags', inner⟩ false
  have calm : (⟨flags, .loop { l with stage }⟩ : Frame).Calm loops :=
    ⟨by simp [off], off, still, fresh, stages⟩
  refine ⟨calm, calm_of (by simp [off']) other, by simp [MayEnd], ?_, ?_, ?_, by omega⟩
  · rintro same s
    obtain rfl := more same
    exact ⟨_, _, rfl⟩
  · simp only [measure]
    omega
  · simp only [measure, rank]
    omega

include still fresh

theorem startBody_spends (room : 16 * (n + 1) ≤ b.limit) (paid : n + b.owed ≤ b.stock) :
    Spends loops n (startBody flags l) (Move.Spends loops b) :=
  .session_bind fun s _ => .pure <|
    loop_push off (l := { l with bodyAt := some s.input }) still fresh (by simp [off]) (by simp)
      (by simp) (fun _ => rfl) room paid

theorem startIncrement_spends (room : 16 * (n + 1) ≤ b.limit) (paid : n + b.owed ≤ b.stock) :
    Spends loops n (startIncrement flags l) (Move.Spends loops b) := by
  refine .session_bind fun s _ => .next_bind fun t m admitted le => ?_
  split
  · exact startBody_spends off still fresh (by omega) (by omega)
  · refine .unread_bind admitted (.pure ?_)
    exact loop_push off (l := { l with incrementAt := some s.input }) still fresh (by simp)
      (by simp) (by simp) (by simp) (by omega) (by omega)

theorem startCondition_spends (room : 16 * (n + 1) ≤ b.limit) (paid : n + b.owed ≤ b.stock) :
    Spends loops n (startCondition flags l) (Move.Spends loops b) := by
  refine .session_bind fun s _ => .next_bind fun t m admitted le => ?_
  split
  · exact startIncrement_spends off off fresh (by omega) (by omega)
  · refine .unread_bind admitted (.pure ?_)
    exact loop_push off (l := { l with conditionAt := some s.input }) still fresh off (by simp)
      (by simp) (by simp) (by omega) (by omega)

theorem stepLoop_spends (stages : l.stage ≠ .afterIncrement ∧ l.stage ≠ .afterLoopCondition)
    (inner : Option Phase) :
    Spends loops n (stepLoop flags l inner)
      (Move.Spends loops (means ⟨flags, .loop l⟩ inner n)) := by
  have room : ∀ m, m + 1 ≤ n → 16 * (m + 1) ≤ (means ⟨flags, .loop l⟩ inner n).limit ∧
      m + (means ⟨flags, .loop l⟩ inner n).owed ≤ n := by
    intro m le
    simp only [means, measure, due]
    omega
  have done : ∀ phase, phase ≠ .eof →
      (Move.done phase).Spends loops (means ⟨flags, .loop l⟩ inner n) n :=
    fun phase proper => by simp [Move.Spends, means, due, proper]
  unfold stepLoop
  split <;> rename_i stage
  · refine .expect_bind (by simp) fun m le => .next_bind fun t k admitted cost => ?_
    split
    · exact startCondition_spends off still fresh (room k (by omega)).1 (room k (by omega)).2
    · exact .pure (loop_push off still fresh off (by simp) (by simp) (by simp)
        (room k (by omega)).1 (room k (by omega)).2)
    · refine .unread_bind admitted (.pure ?_)
      exact loop_push off still fresh off (by simp) (by simp) (by simp)
        (room _ (by omega)).1 (room _ (by omega)).2
  · refine .expect_bind (by simp) fun m le => ?_
    exact startCondition_spends off still fresh (room m le).1 (room m le).2
  · refine .session_bind fun s _ => .expect_bind (by simp) fun m le => ?_
    exact startIncrement_spends off (by simp [off]) fresh (room m le).1 (room m le).2
  · refine .expect_bind (by simp) fun m le => ?_
    exact startBody_spends off still fresh (room m le).1 (room m le).2
  · refine bodyReturns_bind_spends fun returns => ?_
    cases returns with
    | true => exact .pure (done _ (by simp))
    | false =>
      refine .session_bind fun s within => ?_
      simp only [still, fresh, Bool.not_false, if_true, Option.none_or]
      exact .setInput_bind within (.pure (done _ (by simp)))
  · exact absurd stage stages.1
  · exact absurd stage stages.2

end Loop

section Spends

variable {loops : Bool} {flags : Flags} (calm : flags.executes = true → loops = false) {n : Nat}
include calm

theorem stepSimple_spends (nl : Bool) (stage : SimpleStage) (inner : Option Phase) :
    Spends loops n (stepSimple flags nl stage)
      (Move.Spends loops (means ⟨flags, .simple nl stage⟩ inner n)) := by
  have done : ∀ m, m + due ⟨flags, .simple nl stage⟩ ≤ n →
      (Move.done .exprDone).Spends loops (means ⟨flags, .simple nl stage⟩ inner n) m :=
    fun m le => le
  cases stage with
  | start =>
    refine .next_bind fun t m admitted le => ?_
    split
    · refine .unread_bind admitted (.pure ?_)
      refine ⟨calm_of calm (by simp), calm_of calm (by simp), by simp [MayEnd],
        by simp [MayEnd, newCond], ?_⟩
      simp [means, measure, rank, due, newCond]
      omega
    · rename_i name
      rw [Token.cost_of_ne (by simp_all)] at le
      have value : ∀ stage seed k, stage ≠ .start → k ≤ m →
          (Move.push ⟨flags, .simple nl stage⟩ (newCond flags nl seed)).Spends loops
            (means ⟨flags, .simple nl .start⟩ inner n) k := fun stage seed k begun cost =>
        push_taken calm calm (by simp) (by simp) (by simp) (by simp)
          (by simp only [means, measure]; omega) (by simp only [means, due]; omega)
      refine .next_bind fun behind k admitted cost => ?_
      split
      · exact .pure (value _ _ k (by simp) (by omega))
      · have bumped : ∀ op, (bumpVariable op t.text).Keeps Session.input := fun op =>
          .bind (.readVariable _) fun v => .bind (.ofExcept _) fun _ => .update fun _ => rfl
        have taken : k + 1 ≤ n := by omega
        exact .ite (.keep_bind (bumped _) fun _ => .pure (done k taken)) (.pure (done k taken))
      · exact .unread_bind admitted (.pure (value _ _ _ (by simp) cost))
  | assigning name =>
    exact .ite (.keep_bind (.update fun _ => rfl) fun _ => .pure (done n (Nat.le_refl n)))
      (.pure (done n (Nat.le_refl n)))
  | valued => exact .pure (done n (Nat.le_refl n))

theorem stepDeclarations_spends (nl : Bool) (inner : Option Phase) :
    Spends loops n (stepDeclarations flags nl inner)
      (Move.Spends loops (means ⟨flags, .declarations nl⟩ inner n)) := by
  have declare : ∀ m, m ≤ n → Spends loops m (do
      let t ← nextToken .decList
      if t.kind ≠ .identifier then fail (.expectedName t)
      return Move.push ⟨flags, .declarations nl⟩ ⟨flags, .declaration nl t.text⟩)
      (Move.Spends loops (means ⟨flags, .declarations nl⟩ inner n)) := by
    intro m le
    refine .next_bind fun t k admitted cost => ?_
    split
    · exact .bind (P := fun _ _ => False) (.fail _) fun _ _ no => no.elim
    · rename_i name
      rw [Token.cost_of_ne (by simp_all)] at cost
      exact .pure (push_taken calm calm (by simp) (by simp) (by simp) (by simp)
        (by simp only [means, measure]; omega) (by simp only [means, due]; omega))
  cases inner with
  | none => exact declare n (Nat.le_refl n)
  | some phase =>
    refine .next_bind fun t m admitted le => .ite (declare m (by omega)) ?_
    exact .unread_bind admitted (.pure (by simpa [Move.Spends, means, due]))

theorem stepDeclaration_spends (nl : Bool) (name : String) (inner : Option Phase) :
    Spends loops n (stepDeclaration flags nl name inner)
      (Move.Spends loops (means ⟨flags, .declaration nl name⟩ inner n)) := by
  have bound : ∀ value m, m ≤ n → Spends loops m (do
      if flags.executes then update (·.setLocal name value)
      return Move.done .decDone)
      (Move.Spends loops (means ⟨flags, .declaration nl name⟩ inner n)) := by
    intro value m le
    have done : (Move.done .decDone).Spends loops
        (means ⟨flags, .declaration nl name⟩ inner n) m := le
    exact .ite (.keep_bind (.update fun _ => rfl) fun _ => .pure done) (.pure done)
  cases inner with
  | none =>
    refine .next_bind fun t m admitted le => ?_
    split
    · rename_i kind
      rw [Token.cost_of_ne (by simp [kind])] at le
      exact .pure (push_taken calm calm (by simp) (by simp) (by simp) (by simp)
        (by simp only [means, measure]; omega) (by simp only [means, due]; omega))
    · exact .unread_bind admitted (bound "" _ le)
  | some phase => exact .session_bind fun s _ => bound s.result n (Nat.le_refl n)

theorem stepReturning_spends (inner : Option Phase) :
    Spends loops n (stepReturning flags inner)
      (Move.Spends loops (means ⟨flags, .returning⟩ inner n)) := by
  have done : ∀ m, m ≤ n → (Move.done (if flags.executes then .ret else .stmtDone)).Spends loops
      (means ⟨flags, .returning⟩ inner n) m := by
    intro m le
    cases flags.executes <;> exact le
  cases inner with
  | some phase => exact .pure (done n (Nat.le_refl n))
  | none =>
    refine .next_bind fun t m admitted le => .unread_bind admitted ?_
    split
    iterate 4
      exact .ite (.keep_bind (.update fun _ => rfl) fun _ => .pure (done _ le)) (.pure (done _ le))
    refine .pure ⟨calm_of calm (by simp), calm_of calm (by simp), by simp [MayEnd],
      by simp [MayEnd, newCond], ?_⟩
    simp [means, measure, rank, due, newCond]
    omega

end Spends

/-- Whatever a frame does, it keeps within its means. -/
theorem step_spends {loops : Bool} {f : Frame} (calm : f.Calm loops) (inner : Option Phase)
    (n : Nat) :
    Spends loops n (f.step inner) (Move.Spends loops (f.means inner n)) := by
  obtain ⟨flags, construct⟩ := f
  obtain ⟨flagged, shape⟩ := calm
  cases construct with
  | statement stage => exact stepStatement_spends flagged stage inner
  | block scope => exact stepBlock_spends flagged scope inner
  | branch stage => exact stepBranch_spends flagged stage inner
  | loop l =>
    obtain ⟨off, still, fresh, stages⟩ := shape
    exact stepLoop_spends off still fresh stages inner
  | simple nl stage => exact stepSimple_spends flagged nl stage inner
  | declarations nl => exact stepDeclarations_spends flagged nl inner
  | declaration nl name => exact stepDeclaration_spends flagged nl name inner
  | returning => exact stepReturning_spends flagged inner
  | cond nl stage => exact stepCond_spends flagged nl stage inner
  | rel nl stage => exact stepRel_spends flagged nl stage inner
  | expr nl terms => exact stepExpr_spends flagged nl terms inner
  | call name stage => exact stepCall_spends flagged name stage inner
  | arguments => exact stepArguments_spends flagged inner

end Frame

end Scriptlet
