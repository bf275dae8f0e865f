import Scriptlet.Proofs.SimpleStatement

/-!
Compound statements. Each kind is shown to have its effects wherever the statements inside it have
theirs, so that the induction on the tree is left to the end.
-/

namespace Scriptlet

variable {H β : Type}

open Syntax Act Scriptlet.Frame

/-- No `else` follows. That has to be so behind a statement that would take it. -/
def Input.Detached (j : Input) (b : Bool) : Prop :=
  b = true → ∃ t behind, (∀ phase, j.next phase = (t, behind)) ∧ t.kind ≠ .error ∧
    t.kind ≠ .newline ∧ t.kind ≠ .elseWord

theorem Input.Detached.of_ended {j : Input} {b : Bool} (h : j.Detached true) : j.Detached b :=
  fun _ => h rfl

structure Enacts (lib : Library) (observe : Event → H → H) (n : Nat) (b : Bool) (ts : List Token)
    (m : Meaning Flow) : Prop where
  performs : ∀ {flags : Flags} {s : Session} {j : Input} {e : Effect Flow}, s.Fits lib n →
    s.input.Streams ts j → j.Detached b → m.when flags.executes s.store e →
    Performs (.ofNatives lib.natives observe) "stmt" (stepStatement flags .start none) s.enter e
      (Flow.phase .stmtDone) j

namespace Performs

variable {host : Host H} {name : String} {s : Session} {e : Effect Flow} {flags : Flags}
  {i j : Input}

/-- A statement ends in the way that the construct it is made of does. -/
theorem forward {inner : Construct} {terminated : Bool} {m : Meaning β} {inside : β → Phase}
    {flow : β → Flow} (room : s.depth < s.limits.maxDepth)
    (meaning : (m >>= fun b => pure (flow b)) s.store e)
    (h : ∀ e₁, m s.store e₁ → Performs host (Frame.name ⟨flags, inner⟩)
      (Frame.step ⟨flags, inner⟩ none) s.enter e₁ inside i)
    (same : ∀ b, inside b = .ret ↔ flow b = .returned)
    (ends : i.Streams (if terminated then [(sym .semicolon).token] else []) j) :
    Performs host "stmt" (pure (.push ⟨flags, .statement (.forward terminated)⟩ ⟨flags, inner⟩)) s e
      (Flow.phase .stmtDone) j := by
  refine .push rfl room meaning h fun b e₂ s₁ turned place allowed => ?_
  obtain rfl := allowed
  cases ended : flow b with
  | returned =>
    have returns := (same b).mpr ended
    rw [returns]
    exact .finish Flow.returned rfl fun other => absurd rfl other
  | normal =>
    have stays : inside b ≠ .ret := by
      intro returns
      rw [(same b).mp returns] at ended
      cases ended
    have ends := (place stays).append ends
    show Performs host "stmt" (if some (inside b) = some .ret then pure (.done .ret)
      else if terminated then terminate else pure (.done .stmtDone)) s₁ _ _ j
    rw [if_neg (by simp [stays])]
    cases terminated with
    | false => exact .finish Flow.normal rfl fun _ => ends
    | true =>
      obtain ⟨i', semicolon, ends⟩ := ends
      refine .gives (gives_nextToken (semicolon _) (Lexeme.token_valid _)) (.read _ _ _) ?_
      exact .finish Flow.normal rfl fun _ => ends

/-- A construct around a statement goes on behind it unless the statement returns. -/
theorem body {self : Frame} {m k : Meaning Flow} (called : self.name = name)
    (room : s.depth < s.limits.maxDepth) (meaning : (m.andThen k) s.store e)
    (h : ∀ e₁, m s.store e₁ →
      Performs host "stmt" (stepStatement flags .start none) s.enter e₁ (Flow.phase .stmtDone) i)
    (returns : ∀ s₁, (self.step (some .ret)).Gives s₁ (.done .ret) s₁)
    (next : ∀ e₂ s₁, s.Turned s₁.store s₁ → s₁.input.Streams [] i → k s₁.store e₂ →
      Performs host name (self.step (some .stmtDone)) s₁ e₂ (Flow.phase .stmtDone) j) :
    Performs host name (pure (.push self (newStatement flags))) s e (Flow.phase .stmtDone) j := by
  refine .push called room meaning h fun flow e₂ s₁ turned place allowed => ?_
  cases flow with
  | normal => exact next e₂ s₁ turned (place (by simp [Flow.phase])) allowed
  | returned =>
    obtain rfl := allowed
    refine .moves (returns s₁) (.read _ _ _) ?_
    exact .finish Flow.returned rfl fun other => absurd rfl other

end Performs

section Branch

variable {lib : Library} {observe : Event → H → H} {flags : Flags} {s : Session} {i j : Input}
  {e : Effect Flow} {n : Nat} {b : Bool} {c : Cond} {ts : List Token} {m other : Meaning Flow}

/-- A branch up to what stands behind its first statement. -/
theorem branch_performs_first (first : Enacts lib observe n b ts m)
    (fits : s.Fits lib (max c.depth n))
    (read : s.input.Streams ((sym .lparen).token ::
      (c.lexemes.map Lexeme.token ++ (sym .rparen).token :: ts)) i)
    (free : i.Detached b)
    (meaning : (do if Value.truthy (← c.value lib) then m else other : Meaning Flow).when
      flags.executes s.store e)
    (next : ∀ taken e₂ s₁, s.Turned s₁.store s₁ → s₁.input.Streams [] i →
      other.when (flags.executeIf !taken).executes s₁.store e₂ →
      Performs (.ofNatives lib.natives observe) "if" (stepBranch flags (.seekElse taken) none) s₁ e₂
        (Flow.phase .stmtDone) j) :
    Performs (.ofNatives lib.natives observe) "if" (stepBranch flags .opening none) s e
      (Flow.phase .stmtDone) j := by
  obtain ⟨i₁, opens, read⟩ := read
  obtain ⟨i₂, test, read⟩ := read.split
  obtain ⟨i₃, closes, read⟩ := read.closes rfl
  have test : i₁.Seeded none _ i₂ := test
  rw [Meaning.when_bind] at meaning
  refine .gives (gives_expect (opens _) rfl (by simp)) (.read _ _ _) ?_
  refine .cond c rfl (fits.mono (Nat.le_max_left _ _)).read test (closes.follows _) meaning
    fun v e₂ s₁ hs₁ later => ?_
  have next_paren : s₁.input.next .expr = ((sym .rparen).token, i₃) :=
    hs₁ ▸ (closes.again _).trans (closes.next _)
  have turned : s.Turned s₁.store s₁ := hs₁ ▸ ⟨_, _, rfl, rfl⟩
  generalize taking : (flags.executes && Value.truthy s₁.result) = taken
  have both : (if Value.truthy v then m else other).when flags.executes =
      (m.when (flags.executeIf taken).executes).andThen
        (other.when (flags.executeIf !taken).executes) := by
    rw [Meaning.when_branch, ← taking, hs₁]
    cases exe : flags.executes <;> simp [exe]
  rw [both] at later
  refine .gives (gives_session s₁) (.read _ _ _) ?_
  refine .gives (gives_expect next_paren rfl (by simp)) (.read _ _ _) ?_
  simp only [taking]
  have room := turned.fits (fits.mono (Nat.le_max_right _ _))
  refine .body rfl ?_ later (fun e₁ => first.performs room.read read free) (fun _ => ?_)
    fun e₃ s₂ turned₂ place later => ?_
  · exact (turned.fits (fits.mono (Nat.le_max_left _ _))).pos c.depth_pos
  · exact (gives_pure true _).bind (gives_pure _ _)
  · refine .gives (gives_pure false _) (.read _ _ _) (.stay rfl ?_)
    exact next taken e₃ s₂ (turned.trans turned₂) place later

/-- Without an `else` one more token is read and put back. -/
theorem branch_performs (first : Enacts lib observe n b ts m) (fits : s.Fits lib (max c.depth n))
    (read : s.input.Streams ((sym .lparen).token ::
      (c.lexemes.map Lexeme.token ++ (sym .rparen).token :: ts)) j)
    (free : j.Detached true)
    (meaning : (do if Value.truthy (← c.value lib) then m else return .normal : Meaning Flow).when
      flags.executes s.store e) :
    Performs (.ofNatives lib.natives observe) "if" (stepBranch flags .opening none) s e
      (Flow.phase .stmtDone) j := by
  refine branch_performs_first first fits read free.of_ended meaning
    fun taken e₂ s₁ turned place later => ?_
  obtain ⟨t, behind, next, valid, line, other⟩ := free rfl
  have again : (behind.unread t).Streams [] j := fun phase =>
    (Input.next_unread_next (next .expr) phase).trans (next phase).symm
  have later : (pure default : Meaning Flow).when _ s₁.store e₂ := later
  rw [Meaning.when_default] at later
  obtain rfl := later
  refine .gives (gives_nextToken ((place _).trans (next _)) valid) (.read _ _ _) ?_
  split
  · contradiction
  · contradiction
  · refine .gives (gives_update _ _) (.read _ _ _) ?_
    exact .finish Flow.normal rfl fun _ => again

theorem branch_else_performs {n' : Nat} {b' : Bool} {us : List Token}
    (first : Enacts lib observe n false ts m) (second : Enacts lib observe n' b' us other)
    (fits : s.Fits lib (max c.depth (max n n')))
    (read : s.input.Streams ((sym .lparen).token ::
      (c.lexemes.map Lexeme.token ++ (sym .rparen).token ::
        (ts ++ (sym .elseWord).token :: us))) j)
    (free : j.Detached b')
    (meaning : (do if Value.truthy (← c.value lib) then m else other : Meaning Flow).when
      flags.executes s.store e) :
    Performs (.ofNatives lib.natives observe) "if" (stepBranch flags .opening none) s e
      (Flow.phase .stmtDone) j := by
  obtain ⟨i, read, otherwise⟩ : ∃ i, s.input.Streams ((sym .lparen).token ::
      (c.lexemes.map Lexeme.token ++ (sym .rparen).token :: ts)) i ∧
      i.Streams ((sym .elseWord).token :: us) j := by
    refine Input.Streams.split ?_
    simpa using read
  refine branch_performs_first first (fits.mono (by omega)) read (by rintro ⟨⟩) meaning
    fun taken e₂ s₁ turned place later => ?_
  obtain ⟨i₁, word, read⟩ := place.append otherwise
  have fits := turned.fits fits
  have positive := c.depth_pos
  refine .gives (gives_nextToken (word _) (Lexeme.token_valid _)) (.read _ _ _) ?_
  rw [← Meaning.andThen_normal (other.when _)] at later
  refine .body rfl (fits.pos (by omega)) later
    (fun e₁ => second.performs (fits.mono (by omega)).read read free) (fun _ => ?_)
    fun e₃ s₂ turned₂ place later => ?_
  · exact (gives_pure true _).bind (gives_pure _ _)
  · obtain rfl := later
    refine .gives (gives_pure false _) (.read _ _ _) ?_
    exact .finish Flow.normal rfl fun _ => place

end Branch

section Block

/-- A block comes to its end, where it has only to be left, or it fails on the way. -/
structure Unrolls (host : Host H) (flags : Flags) (scope : Option BlockId) (s : Session)
    (e : Effect Flow) (j : Input) : Prop where
  ok : ∀ {flow}, e.outcome = .ok flow → ∃ s₁, s.Turned e.store s₁ ∧
    (flow = .normal → s₁.input.Streams [] j) ∧ ∀ {r s' more},
      Runs host "block" (stepBlock flags scope (some (flow.phase .stmtBlockDone))) s₁ r s' more →
      Runs host "block" (pure (.push ⟨flags, .block scope⟩ (newStatement flags))) s r s'
        (e.calls ++ more)
  error : ∀ {cause}, e.outcome = .error cause → ∃ s', s.Broken e.store s' ∧
    Runs host "block" (pure (.push ⟨flags, .block scope⟩ (newStatement flags))) s (.error cause) s'
      e.calls

variable {lib : Library} {observe : Event → H → H} {flags : Flags} {scope : Option BlockId}
  {s : Session} {i j : Input} {e : Effect Flow} {n : Nat} {b : Bool} {ts : List Token}
  {m k : Meaning Flow}

theorem Unrolls.nil {host : Host H} (room : s.depth < s.limits.maxDepth)
    (read : s.input.Streams [(sym .rbrace).token] j) :
    Unrolls host flags scope s ⟨.ok .normal, s.store, []⟩ j where
  ok := by
    rintro _ ⟨⟩
    obtain ⟨i, brace, read⟩ := read
    have closes : Runs host "stmt" (stepStatement flags .start none) s.enter
        (.ok .stmtBlockDone) _ [] :=
      .gives (gives_nextToken (brace _) (Lexeme.token_valid _)) (.done .stmtBlockDone _)
    exact ⟨_, .read s i _, fun _ => read, fun run => closes.push room run⟩
  error := by
    rintro _ ⟨⟩

theorem Unrolls.cons (first : Enacts lib observe n b ts m) (fits : s.Fits lib n)
    (room : s.depth < s.limits.maxDepth) (read : s.input.Streams ts i) (free : i.Detached b)
    (meaning : (m.andThen k).when flags.executes s.store e)
    (next : ∀ e₂ s₁, s.Turned s₁.store s₁ → s₁.input.Streams [] i →
      k.when flags.executes s₁.store e₂ →
      Unrolls (.ofNatives lib.natives observe) flags scope s₁ e₂ j) :
    Unrolls (.ofNatives lib.natives observe) flags scope s e j := by
  rw [Meaning.when_andThen] at meaning
  obtain ⟨e₁, inner, total⟩ := meaning
  have performs := first.performs fits read free inner
  cases he₁ : e₁.outcome with
  | error cause =>
    simp only [Effect.Then, he₁] at total
    subst total
    obtain ⟨s', broken, run⟩ := performs.error he₁
    refine ⟨by rintro _ ⟨⟩, ?_⟩
    rintro _ ⟨⟩
    exact ⟨s', broken.of_enter, run.push_fails room⟩
  | ok flow =>
    simp only [Effect.Then, he₁] at total
    obtain ⟨e₂, allowed, rfl⟩ := total
    obtain ⟨s₁, turned, place, run⟩ := performs.ok he₁
    have turned := turned.leave
    have store := turned.store_eq
    cases flow with
    | returned =>
      obtain rfl := allowed
      refine ⟨?_, by rintro _ ⟨⟩⟩
      rintro _ ⟨⟩
      refine ⟨s₁.leave, turned, by rintro ⟨⟩, fun later => ?_⟩
      rw [List.append_nil]
      exact run.push room later
    | normal =>
      rw [← store] at allowed
      have later := next e₂ s₁.leave (store ▸ turned) (place (by simp [Flow.phase])) allowed
      constructor
      · intro flow he₂
        obtain ⟨s₂, turned₂, place₂, run₂⟩ := later.ok he₂
        refine ⟨s₂, turned.trans turned₂, place₂, fun last => ?_⟩
        rw [List.append_assoc]
        exact run.push room (run₂ last)
      · intro cause he₂
        obtain ⟨s', broken, run₂⟩ := later.error he₂
        exact ⟨s', turned.broken broken, run.push room run₂⟩

theorem stepBlock_leaves (id : BlockId) (flow : Flow) :
    stepBlock flags (some id) (some (flow.phase .stmtBlockDone)) =
      closeBlock id >>= fun _ => pure (.done (flow.phase .stmtBlockDone)) := by
  cases flow <;> rfl

theorem stepBlock_scans (exe : flags.executes = false) :
    stepBlock flags none none = pure (.push ⟨flags, .block none⟩ (newStatement flags)) := by
  simp [stepBlock, exe]

theorem stepBlock_opens (exe : flags.executes = true) :
    (stepBlock flags none none).Gives s
      (.push ⟨flags, .block (some s.scopes.openBlock.1)⟩ (newStatement flags))
      { s with scopes := s.scopes.openBlock.2 } := by
  have opens : openBlock.Gives s s.scopes.openBlock.1 { s with scopes := s.scopes.openBlock.2 } :=
    (gives_session s).bind ((gives_setSession s _).bind (gives_pure _ _))
  simp only [stepBlock, exe, if_true]
  exact opens.bind ((gives_emit _ _).bind (gives_pure _ _))

/-- Read over, a block opens no scope. -/
theorem block_performs_scan {host : Host H} (exe : flags.executes = false)
    (inner : Unrolls host flags none s ⟨.ok .normal, s.store, []⟩ j) :
    Performs host "block" (stepBlock flags none none) s ⟨.ok .normal, s.store, []⟩
      (Flow.phase .stmtBlockDone) j := by
  obtain ⟨s₁, turned, place, run⟩ := inner.ok rfl
  rw [stepBlock_scans exe]
  exact .of_ok rfl turned (fun _ => place rfl) (run (.done .stmtBlockDone s₁))

theorem gives_closeBlock {id : BlockId} {scopes : ScopeStack} (h : s.scopes.close id = .ok scopes) :
    (closeBlock id).Gives s () { s with scopes } :=
  (gives_session s).bind ((gives_ofExcept h s).bind (gives_setSession s _))

theorem fails_closeBlock {id : BlockId} {cause : Fault.Cause}
    (h : s.scopes.close id = .error cause) : (closeBlock id).Fails s cause s :=
  (gives_session s).fails_bind (fails_ofExcept h s).bind

/-- Executed, a block closes the scope it has opened, whichever way it is left. -/
theorem block_performs_execute {host : Host H} (exe : flags.executes = true)
    (inner : Unrolls host flags (some s.scopes.openBlock.1)
      { s with scopes := s.scopes.openBlock.2 } e j) :
    Performs host "block" (stepBlock flags none none) s
      (e.leaveBlock s.scopes.openBlock.1 s.scopes.depth) (Flow.phase .stmtBlockDone) j := by
  have opens : (stepBlock flags none none).Gives s _ _ := stepBlock_opens exe
  cases out : e.outcome with
  | error cause =>
    obtain ⟨_, ⟨input, token, result, call, depth, scopes, rfl, left⟩, run⟩ := inner.error out
    have fails := e.leaveBlock_error out s.scopes.openBlock.1 s.scopes.depth
    refine .of_error fails ⟨input, token, result, call, depth, scopes, rfl, ?_⟩ (.moves opens run)
    have left : scopes.truncate (s.scopes.depth + 1) = e.store.scopes := left
    have twice := scopes.truncate_truncate (Nat.le_succ s.scopes.depth)
    rw [left] at twice
    exact twice.symm
  | ok flow =>
    obtain ⟨s₁, turned, place, run⟩ := inner.ok out
    rw [stepBlock_leaves] at run
    obtain ⟨input, token, rfl, same⟩ := turned
    have closing := ScopeStack.close_opened same
    by_cases small : s.scopes.depth + 1 < UInt32.size
    · rw [if_pos small] at closing
      have leaves := run (.gives (gives_closeBlock closing) (.done (flow.phase .stmtBlockDone) _))
      rw [List.append_nil] at leaves
      refine .of_ok (Effect.leaveBlock_ok out _ small) ⟨input, token, rfl, ?_⟩ (fun goes => ?_)
        (.moves opens leaves)
      · exact ScopeStack.serials_truncate_opened same
      · refine place ?_
        cases flow with
        | normal => rfl
        | returned => exact absurd rfl goes
    · rw [if_neg small] at closing
      have leaves := run (.fails (fails_closeBlock closing).bind)
      rw [List.append_nil] at leaves
      refine .of_error (Effect.leaveBlock_refused out _ small) ?_ (.moves opens leaves)
      exact ⟨input, token, e.store.result, s.call, s.depth, e.store.scopes, rfl, rfl⟩

/-- A block whose statements are all read up to the brace, which is part of `ts`. -/
theorem block_performs {host : Host H}
    (inner : ∀ scope s e, s.Fits lib n → s.input.Streams ts j → m.when flags.executes s.store e →
      Unrolls host flags scope s e j)
    (fits : s.Fits lib n) (read : s.input.Streams ts j)
    (meaning : (Meaning.enclosed m).when flags.executes s.store e) :
    Performs host "block" (stepBlock flags none none) s e (Flow.phase .stmtBlockDone) j := by
  cases exe : flags.executes with
  | false =>
    rw [exe] at meaning inner
    obtain rfl : e = ⟨.ok .normal, s.store, []⟩ := meaning
    exact block_performs_scan exe (inner none s _ fits read rfl)
  | true =>
    rw [exe] at meaning inner
    obtain ⟨e', meaning, rfl⟩ := meaning
    refine block_performs_execute exe (inner _ _ e' ⟨fits.functions, fits.room⟩ read meaning)

end Block

end Scriptlet
