import Scriptlet.Proofs.Compound

/-!
Loops. The header and the body are read over once; every later turn replays them from the
checkpoints kept on the way, and the checkpoint behind the body is where reading goes on.
-/

namespace Scriptlet

variable {H : Type}

open Syntax Act Scriptlet.Frame Meaning

def Recalls (checkpoint : Option Input) : Option (List Lexeme) → Prop
  | none => checkpoint = none
  | some ls => ∃ i k t behind, checkpoint = some i ∧ i.Streams (ls.map Lexeme.token) k ∧
    k.Closes t behind

structure Frame.Loop.Knows (l : Loop) (c : Option Cond) (step : Option Simple) (ts : List Token)
    (j : Input) : Prop where
  condition : Recalls l.conditionAt (c.map Cond.lexemes)
  increment : Recalls l.incrementAt (step.map Simple.lexemes)
  body : ∃ i, l.bodyAt = some i ∧ i.Streams ts j

structure Frame.Loop.Turns (l : Loop) (c : Option Cond) (step : Option Simple) (ts : List Token)
    (j : Input) : Prop extends l.Knows c step ts j where
  running : l.running = true
  left : ∃ i, l.endAt = some i ∧ i.Streams [] j

structure Repeatable (lib : Library) (observe : Event → H → H) (n : Nat) (ts : List Token)
    (m : Meaning Flow) (j : Input) : Prop where
  enacts : ∃ b, Enacts lib observe n b ts m ∧ j.Detached b
  positive : 0 < n

section Turns

variable {lib : Library} {observe : Event → H → H} {flags : Flags} {l : Loop} {c : Option Cond}
  {step : Option Simple} {n : Nat} {ts : List Token} {m : Meaning Flow} {s : Session}
  {j : Input} {e : Effect Flow}

/-- The effects that a loop between two turns has from its condition on. -/
def Replays (lib : Library) (observe : Event → H → H) (flags : Flags) (c : Option Cond)
    (step : Option Simple) (n : Nat) (ts : List Token) (j : Input) : Meaning Flow := fun σ e =>
  ∀ (l : Loop) (s : Session), s.store = σ → s.Fits lib (max (headerDepth c step) n) →
    l.Turns c step ts j →
    Performs (.ofNatives lib.natives observe) "for" (checkCondition flags l) s e
      (Flow.phase .stmtDone) j

theorem gives_resume {checkpoint : Option Input} {i : Input} (h : checkpoint = some i) :
    (resume checkpoint).Gives s () { s with input := i } := by
  subst h
  exact gives_update (fun s => { s with input := i }) s

theorem leaveLoop_performs {host : Host H} (left : ∃ i, l.endAt = some i ∧ i.Streams [] j) :
    Performs host "for" (leaveLoop l) s ⟨.ok .normal, s.store, []⟩ (Flow.phase .stmtDone) j := by
  obtain ⟨i, at_end, back⟩ := left
  refine .gives (gives_resume at_end) (.read s i s.token) ?_
  exact .finish Flow.normal rfl fun _ => back

/-- Behind the body comes the increment, and then the next turn. -/
theorem afterBody_performs_turn (exe : flags.executes = true)
    (fits : s.Fits lib (max (headerDepth c step) n)) (turns : l.Turns c step ts j)
    (meaning : (increment lib step >>= fun _ =>
      Replays lib observe flags c step n ts j) s.store e) :
    Performs (.ofNatives lib.natives observe) "for"
      (if l.incrementAt.isSome then resume l.incrementAt >>= fun _ =>
          pure (.push ⟨flags, .loop { l with stage := .afterIncrement }⟩ (newSimple flags false))
        else checkCondition flags l) s e (Flow.phase .stmtDone) j := by
  have recalls := turns.increment
  cases step with
  | none =>
    have none : l.incrementAt = none := recalls
    rw [none, if_neg (by simp)]
    rw [increment, pure_bind] at meaning
    exact meaning l s rfl fits turns
  | some x =>
    obtain ⟨i, k, t, behind, checkpoint, read, closes⟩ := recalls
    have shallow : x.depth ≤ headerDepth c (some x) := Nat.le_max_right _ _
    have room : s.Fits lib x.depth := fits.mono (by omega)
    rw [if_pos (by simp [checkpoint])]
    rw [increment, ← when_true (x.exec lib), ← exe] at meaning
    refine .gives (gives_resume checkpoint) (.read s i s.token) ?_
    refine .push rfl (room.pos x.depth_pos) meaning (fun e₁ => x.performs room.read read closes)
      fun _ e₂ s₁ turned _ later => ?_
    have same : s₁.Fits lib _ := turned.fits fits.read
    exact later _ s₁ rfl same
      ⟨⟨turns.condition, turns.increment, turns.body⟩, turns.running, turns.left⟩

theorem afterBody_performs (only : l.running = true → flags.executes = true)
    (fits : s.Fits lib (max (headerDepth c step) n)) (knows : l.Knows c step ts j)
    (left : ∀ i, l.endAt = some i → i.Streams [] j) (back : s.input.Streams [] j)
    (meaning : (increment lib step >>= fun _ => Replays lib observe flags c step n ts j).when
      l.running s.store e) :
    Performs (.ofNatives lib.natives observe) "for" (afterBody flags l) s e
      (Flow.phase .stmtDone) j := by
  have left : ∃ i, l.endAt.or (some s.input) = some i ∧ i.Streams [] j := by
    cases at_end : l.endAt with
    | none => exact ⟨s.input, rfl, back⟩
    | some i => exact ⟨i, rfl, left i at_end⟩
  refine .gives (gives_session s) (.read s s.input s.token) ?_
  cases running : l.running with
  | false =>
    rw [running] at meaning
    obtain rfl : e = ⟨.ok .normal, s.store, []⟩ := meaning
    rw [if_pos (by simp)]
    exact leaveLoop_performs left
  | true =>
    rw [running] at meaning
    rw [if_neg (by simp)]
    exact afterBody_performs_turn (only running) fits
      ⟨⟨knows.condition, knows.increment, knows.body⟩, rfl, left⟩ meaning

/-- The body, executed if the loop is running. `inner` are the flags it is read with. -/
theorem body_performs {inner : Flags} (body : Repeatable lib observe n ts m j)
    (same : inner.executes = l.running) (only : l.running = true → flags.executes = true)
    (fits : s.Fits lib (max (headerDepth c step) n)) (knows : l.Knows c step ts j)
    (left : ∀ i, l.endAt = some i → i.Streams [] j) (read : s.input.Streams ts j)
    (meaning : (m.andThen (increment lib step >>= fun _ =>
      Replays lib observe flags c step n ts j)).when l.running s.store e) :
    Performs (.ofNatives lib.natives observe) "for"
      (pure (.push ⟨flags, .loop { l with stage := .afterBody }⟩ (newStatement inner))) s e
      (Flow.phase .stmtDone) j := by
  obtain ⟨b, enacts, free⟩ := body.enacts
  have room : s.Fits lib n := fits.mono (Nat.le_max_right _ _)
  rw [when_andThen] at meaning
  refine .body rfl (room.pos body.positive) meaning
    (fun e₁ allowed => enacts.performs room read free (same ▸ allowed)) (fun _ => ?_)
    fun e₂ s₁ turned place later => ?_
  · exact (gives_pure true _).bind (gives_pure _ _)
  · refine .gives (gives_pure false _) (.read s₁ s₁.input s₁.token) ?_
    exact afterBody_performs (l := { l with stage := .afterBody }) only (turned.fits fits)
      ⟨knows.condition, knows.increment, knows.body⟩ left place later

theorem repeatBody_performs (body : Repeatable lib observe n ts m j)
    (exe : flags.executes = true) (fits : s.Fits lib (max (headerDepth c step) n))
    (turns : l.Turns c step ts j)
    (meaning : (m.andThen (increment lib step >>= fun _ =>
      Replays lib observe flags c step n ts j)) s.store e) :
    Performs (.ofNatives lib.natives observe) "for" (repeatBody flags l) s e
      (Flow.phase .stmtDone) j := by
  obtain ⟨i, checkpoint, read⟩ := turns.body
  obtain ⟨k, at_end, back⟩ := turns.left
  refine .gives (gives_resume checkpoint) (.read s i s.token) ?_
  refine body_performs body (exe.trans turns.running.symm) (fun _ => exe) fits.read turns.toKnows ?_
    read ?_
  · intro k' at_end'
    obtain rfl := Option.some.inj (at_end.symm.trans at_end')
    exact back
  · rw [turns.running]
    exact meaning

/-- One turn of a loop, from condition to condition. -/
theorem checkCondition_performs_turn (body : Repeatable lib observe n ts m j)
    (exe : flags.executes = true) (fits : s.Fits lib (max (headerDepth c step) n))
    (turns : l.Turns c step ts j)
    (meaning : loopOnce (test lib c) m (increment lib step)
      (Replays lib observe flags c step n ts j) s.store e) :
    Performs (.ofNatives lib.natives observe) "for" (checkCondition flags l) s e
      (Flow.phase .stmtDone) j := by
  have recalls := turns.condition
  cases c with
  | none =>
    have none : l.conditionAt = none := recalls
    rw [loopOnce, test, pure_bind, if_pos rfl] at meaning
    rw [checkCondition, if_neg (by simp [none])]
    exact repeatBody_performs body exe fits turns meaning
  | some c =>
    obtain ⟨i, k, t, behind, checkpoint, read, closes⟩ := recalls
    have read : i.Seeded none _ k := read
    have shallow : c.depth ≤ headerDepth (some c) step := Nat.le_max_left _ _
    have room : s.Fits lib c.depth := fits.mono (by omega)
    have meaning : ((c.value lib).when flags.executes >>= fun v =>
        if Value.truthy v then m.andThen (increment lib step >>= fun _ =>
          Replays lib observe flags (some c) step n ts j)
        else pure .normal) s.store e := by
      rw [exe, when_true]
      simpa only [loopOnce, test, bind_assoc, pure_bind] using meaning
    rw [checkCondition, if_pos (by simp [checkpoint])]
    refine .gives (gives_resume checkpoint) (.read s i s.token) ?_
    refine .cond c rfl room.read read (closes.follows _) meaning fun v e₂ s₁ hs₁ later => ?_
    have result : s₁.result = v := by rw [hs₁, if_pos exe]
    have fits : s₁.Fits lib (max (headerDepth (some c) step) n) := hs₁ ▸ ⟨fits.functions, fits.room⟩
    refine .gives (gives_session s₁) (.read s₁ s₁.input s₁.token) ?_
    rw [result]
    by_cases goes : Value.truthy v
    · rw [if_pos goes] at later ⊢
      exact repeatBody_performs body exe fits
        ⟨⟨turns.condition, turns.increment, turns.body⟩, rfl, turns.left⟩ later
    · rw [if_neg goes] at later ⊢
      obtain rfl := later
      exact leaveLoop_performs turns.left

/-- All turns that follow, by induction on them. -/
theorem replays_of_loop (body : Repeatable lib observe n ts m j) (exe : flags.executes = true)
    {σ : Store} (h : loop (test lib c) m (increment lib step) σ e) :
    Replays lib observe flags c step n ts j σ e := by
  -- On the turns: behind each the loop stands at its condition again, with the same checkpoints.
  refine loop_least h fun once => ?_
  rintro l s rfl fits turns
  exact checkCondition_performs_turn body exe fits turns once

end Turns

section Header

variable {lib : Library} {observe : Event → H → H} {flags : Flags} {l : Loop} {c : Option Cond}
  {step : Option Simple} {n : Nat} {ts : List Token} {m : Meaning Flow} {s : Session} {j : Input}
  {e : Effect Flow}

theorem startBody_performs (body : Repeatable lib observe n ts m j)
    (only : l.running = true → flags.executes = true)
    (fits : s.Fits lib (max (headerDepth c step) n))
    (condition : Recalls l.conditionAt (c.map Cond.lexemes))
    (stepping : Recalls l.incrementAt (step.map Simple.lexemes)) (fresh : l.endAt = none)
    (read : s.input.Streams ts j)
    (meaning : (m.andThen (increment lib step >>= fun _ =>
      Replays lib observe flags c step n ts j)).when l.running s.store e) :
    Performs (.ofNatives lib.natives observe) "for" (startBody flags l) s e
      (Flow.phase .stmtDone) j := by
  have same : (flags.executeIf l.running).executes = l.running := by
    rw [Flags.executes_executeIf]
    cases running : l.running with
    | false => exact Bool.and_false _
    | true => rw [only running, Bool.and_true]
  have none : ∀ i, l.endAt = some i → i.Streams [] j := by simp [fresh]
  refine .gives (gives_session s) (.read s s.input s.token) ?_
  exact body_performs (l := { l with bodyAt := some s.input }) body same only fits
    ⟨condition, stepping, s.input, rfl, read⟩ none read meaning

theorem startIncrement_performs (body : Repeatable lib observe n ts m j)
    (only : l.running = true → flags.executes = true)
    (fits : s.Fits lib (max (headerDepth c step) n))
    (condition : Recalls l.conditionAt (c.map Cond.lexemes)) (unread : l.incrementAt = none)
    (fresh : l.endAt = none)
    (read : s.input.Streams (((step.map Simple.lexemes).getD []).map Lexeme.token ++
      (sym .rparen).token :: ts) j)
    (meaning : (m.andThen (increment lib step >>= fun _ =>
      Replays lib observe flags c step n ts j)).when l.running s.store e) :
    Performs (.ofNatives lib.natives observe) "for" (startIncrement flags l) s e
      (Flow.phase .stmtDone) j := by
  refine .gives (gives_session s) (.read s s.input s.token) ?_
  cases step with
  | none =>
    obtain ⟨i, paren, read⟩ := read
    refine .gives (gives_nextToken (paren _) (Lexeme.token_valid _)) (.read _ _ _) ?_
    rw [if_pos (show (sym .rparen).token.kind = .rparen from rfl)]
    exact startBody_performs body only fits.read condition unread fresh read meaning
  | some x =>
    obtain ⟨k, first, read⟩ := read.split
    obtain ⟨behind, closes, read⟩ := read.closes rfl
    obtain ⟨t, i, next, starts, valid, again⟩ := x.starts.peek first
    have other : t.kind ≠ .rparen := Token.Kind.ne_of_test starts rfl
    have shallow : x.depth ≤ headerDepth c (some x) := Nat.le_max_right _ _
    have room : s.Fits lib x.depth := fits.mono (by omega)
    have meaning : ((x.exec lib).when flags.scan.executes >>= fun _ =>
        (m.andThen (increment lib (some x) >>= fun _ =>
          Replays lib observe flags c (some x) n ts j)).when l.running) s.store e := by
      rw [Flags.executes_scan, when_false, pure_bind]
      exact meaning
    refine .gives (gives_nextToken (next _) valid) (.read _ _ _) ?_
    rw [if_neg other]
    refine .gives (gives_update _ _) (.read _ _ _) ?_
    refine .push rfl (room.pos x.depth_pos) meaning
      (fun e₁ => x.performs room.read again closes) fun _ e₂ s₁ turned place later => ?_
    have paren : s₁.input.next .expr = ((sym .rparen).token, behind) :=
      (place (by simp) _).trans (closes.next _)
    refine .gives (gives_expect paren rfl (by simp)) (.read _ _ _) ?_
    exact startBody_performs body only (turned.fits fits.read).read condition
      ⟨s.input, k, _, behind, rfl, first, closes⟩ fresh read later

/-- Without a condition a loop runs if it executes. -/
theorem test_none_when (exe : Bool) : (test lib none).when exe = pure exe := by
  cases exe <;> rfl

theorem test_some_when (exe : Bool) (c : Cond) :
    (test lib (some c)).when exe =
      (c.value lib).when exe >>= fun v => pure (exe && Value.truthy v) := by
  cases exe with
  | true => rfl
  | false =>
    rw [when_false, when_false, pure_bind]
    rfl

def headerTokens (c : Option Cond) (step : Option Simple) (ts : List Token) : List Token :=
  (Syntax.optional c).map Lexeme.token ++ (sym .semicolon).token ::
    (((step.map Simple.lexemes).getD []).map Lexeme.token ++ (sym .rparen).token :: ts)

theorem startCondition_performs (body : Repeatable lib observe n ts m j)
    (fits : s.Fits lib (max (headerDepth c step) n)) (untested : l.conditionAt = none)
    (unread : l.incrementAt = none) (fresh : l.endAt = none)
    (read : s.input.Streams (headerTokens c step ts) j)
    (meaning : (loop (test lib c) m (increment lib step)).when flags.executes s.store e) :
    Performs (.ofNatives lib.natives observe) "for" (startCondition flags l) s e
      (Flow.phase .stmtDone) j := by
  have meaning : (loopOnce (test lib c) m (increment lib step)
      (Replays lib observe flags c step n ts j)).when flags.executes s.store e := by
    cases exe : flags.executes with
    | false =>
      rw [exe] at meaning
      exact meaning
    | true =>
      rw [exe] at meaning
      exact loop_unfold meaning (replays_of_loop body exe)
  rw [when_loopOnce] at meaning
  refine .gives (gives_session s) (.read s s.input s.token) ?_
  cases c with
  | none =>
    obtain ⟨i, semicolon, read⟩ := read
    rw [test_none_when, pure_bind] at meaning
    refine .gives (gives_nextToken (semicolon _) (Lexeme.token_valid _)) (.read _ _ _) ?_
    rw [if_pos (show (sym .semicolon).token.kind = .semicolon from rfl)]
    exact startIncrement_performs (l := { l with running := flags.executes }) body id fits.read
      untested unread fresh read meaning
  | some c =>
    obtain ⟨k, first, read⟩ := read.split
    obtain ⟨behind, closes, read⟩ := read.closes rfl
    obtain ⟨t, i, next, starts, valid, again⟩ := c.starts.peek first
    have again : (i.unread t).Seeded none _ k := again
    have other : t.kind ≠ .semicolon := Token.Kind.ne_of_test starts rfl
    have shallow : c.depth ≤ headerDepth (some c) step := Nat.le_max_left _ _
    have room : s.Fits lib c.depth := fits.mono (by omega)
    rw [test_some_when, bind_assoc] at meaning
    refine .gives (gives_nextToken (next _) valid) (.read _ _ _) ?_
    rw [if_neg other]
    refine .gives (gives_update _ _) (.read _ _ _) ?_
    refine .cond c rfl room.read again (closes.follows _) meaning fun v e₂ s₁ hs₁ later => ?_
    have semicolon : s₁.input.next .expr = ((sym .semicolon).token, behind) :=
      hs₁ ▸ (closes.again _).trans (closes.next _)
    have fits : s₁.Fits lib (max (headerDepth (some c) step) n) := hs₁ ▸ ⟨fits.functions, fits.room⟩
    have same : (flags.executes && Value.truthy v) =
        (flags.executes && Value.truthy s₁.result) := by
      rw [hs₁]
      cases flags.executes <;> simp
    rw [pure_bind, same] at later
    refine .gives (gives_session s₁) (.read s₁ s₁.input s₁.token) ?_
    refine .gives (gives_expect semicolon rfl (by simp)) (.read _ _ _) ?_
    refine startIncrement_performs
      (l := ⟨.afterCondition, flags.executes && Value.truthy s₁.result, some s.input, l.incrementAt,
        l.bodyAt, l.endAt⟩)
      body ?_ fits.read ⟨s.input, k, _, behind, rfl, first, closes⟩ unread fresh read later
    intro running
    exact (Bool.and_eq_true_iff.mp running).1

theorem afterInit_performs {k behind : Input} (body : Repeatable lib observe n ts m j)
    (fits : s.Fits lib (max (headerDepth c step) n)) (back : s.input.Streams [] k)
    (closes : k.Closes (sym .semicolon).token behind)
    (read : behind.Streams (headerTokens c step ts) j)
    (meaning : (loop (test lib c) m (increment lib step)).when flags.executes s.store e) :
    Performs (.ofNatives lib.natives observe) "for"
      (stepLoop flags { stage := .afterInit } (some .exprDone)) s e (Flow.phase .stmtDone) j := by
  have semicolon : s.input.next .expr = ((sym .semicolon).token, behind) :=
    (back _).trans (closes.next _)
  refine .gives (gives_expect semicolon rfl (by simp)) (.read _ _ _) ?_
  exact startCondition_performs body fits.read rfl rfl rfl read meaning

theorem loop_performs {init : Init} (body : Repeatable lib observe n ts m j)
    (fits : s.Fits lib (max init.depth (max (headerDepth c step) n)))
    (read : s.input.Streams ((sym .lparen).token :: (init.lexemes.map Lexeme.token ++
      (sym .semicolon).token :: headerTokens c step ts)) j)
    (meaning : (init.exec lib >>= fun _ => loop (test lib c) m (increment lib step)).when
      flags.executes s.store e) :
    Performs (.ofNatives lib.natives observe) "for" (stepLoop flags {} none) s e
      (Flow.phase .stmtDone) j := by
  obtain ⟨i, opens, read⟩ := read
  have later := fits.mono (Nat.le_max_right _ _)
  have first := fits.mono (Nat.le_max_left _ _)
  rw [when_bind] at meaning
  refine .gives (gives_expect (opens _) rfl (by simp)) (.read _ _ _) ?_
  cases init with
  | none =>
    obtain ⟨i₁, semicolon, read⟩ := read
    rw [Init.exec, when_default, pure_bind] at meaning
    refine .gives (gives_nextToken (semicolon _) (Lexeme.token_valid _)) (.read _ _ _) ?_
    exact startCondition_performs body later.read rfl rfl rfl read meaning
  | simple x =>
    obtain ⟨k, init, read⟩ := read.split
    obtain ⟨behind, closes, read⟩ := read.closes rfl
    obtain ⟨t, i₁, next, starts, valid, again⟩ := x.starts.peek init
    refine .gives (gives_nextToken (next _) valid) (.read _ _ _) ?_
    split
    · rename_i kind
      exact absurd kind (Token.Kind.ne_of_test starts rfl)
    · rename_i kind
      exact absurd kind (Token.Kind.ne_of_test starts rfl)
    · refine .gives (gives_update _ _) (.read _ _ _) ?_
      refine .push rfl (first.pos x.depth_pos) meaning
        (fun e₁ => x.performs first.read again closes) fun _ e₂ s₁ turned place allowed => ?_
      exact afterInit_performs body (turned.fits later.read) (place (by simp)) closes read allowed
  | declare d ds =>
    obtain ⟨i₁, word, read⟩ := read
    obtain ⟨k, init, read⟩ := read.split
    obtain ⟨behind, closes, read⟩ := read.closes rfl
    refine .gives (gives_nextToken (word _) (Lexeme.token_valid _)) (.read _ _ _) ?_
    refine .push rfl first.one meaning (fun e₁ allowed =>
      declarations_perform first.enter.read init closes (by rintro ⟨⟩) allowed)
      fun _ e₂ s₁ turned place allowed => ?_
    exact afterInit_performs body (turned.fits later.read) (place (by simp)) closes read allowed

end Header

end Scriptlet
