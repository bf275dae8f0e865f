import Scriptlet.Proofs.Layout
import Scriptlet.Proofs.Peak
import Scriptlet.Proofs.ScanAgreement
import Scriptlet.Proofs.Sequence

/-!
The ceiling is exact for expressions. A construct that completes when there is room enough has a
greatest depth, and this alone decides between success and the fault of the ceiling under any
limits. While an expression is executed the machine gets exactly as deep as while it is read over,
so the depth is that of the tree, short-circuited operands included.
-/

namespace Scriptlet

/-! ### Native functions that do not depend on the limits -/

/-- The program evaluates no script, parses nothing and does not ask for the limits. -/
def Program.Heedless {H α : Type} : Program H α → Prop
  | .done _ | .raise _ => True
  | .request r next => r ≠ .limits ∧ ∀ a, (next a).Heedless
  | .readHost next => ∀ state, (next state).Heedless
  | .writeHost _ next => next.Heedless
  | .eval _ _ _ | .parse _ _ _ => False

theorem Session.answer_under {r : Request} (other : r ≠ .limits) (s : Session) (limits : Limits) :
    { s with limits }.answer r =
      ((s.answer r).1, { (s.answer r).2.1 with limits }, (s.answer r).2.2) := by
  cases r with
  | limits => exact absurd rfl other
  | closeBlock id =>
    simp only [Session.answer]
    cases s.scopes.close id <;> rfl
  | _ => rfl

namespace Machine

variable {H : Type} {host : Host H}

/-- Such a program does the same under other limits. -/
theorem Ends.under {p : Program H Unit} (heedless : p.Heedless) {s s' : Session} {state state' : H}
    {answer : Except Fault Unit} (h : Ends host p s state answer s' state') (limits : Limits) :
    Ends host p { s with limits } state answer { s' with limits } state' := by
  have asks : ∀ (r : Request) next (s : Session) (state : H),
      step host ⟨s, state, .program (.request r next) .idle⟩ =
        (.inr ⟨(s.answer r).2.1, host.absorb (s.answer r).2.2 state,
          .program (next (s.answer r).1) .idle⟩ : Finished H .unit ⊕ Config H .unit) :=
    fun _ _ _ _ => rfl
  obtain ⟨n, hn⟩ := h
  induction p generalizing n s state with
  | done a =>
    match n with
    | 0 | 1 => cases hn
    | n + 2 =>
      cases hn
      exact ⟨2, rfl⟩
  | raise fault =>
    match n with
    | 0 | 1 => cases hn
    | n + 2 =>
      cases hn
      exact ⟨2, rfl⟩
  | request r next ih =>
    cases n with
    | zero => cases hn
    | succ n =>
      obtain ⟨m, hm⟩ := ih _ (heedless.2 _) n (run_step (asks r next s state) hn)
      refine ⟨m + 1, ?_⟩
      rw [run, asks, s.answer_under heedless.1 limits]
      exact hm
  | readHost next ih =>
    cases n with
    | zero => cases hn
    | succ n =>
      obtain ⟨m, hm⟩ := ih state (heedless state) n hn
      exact ⟨m + 1, hm⟩
  | writeHost state next ih =>
    cases n with
    | zero => cases hn
    | succ n =>
      obtain ⟨m, hm⟩ := ih heedless n hn
      exact ⟨m + 1, hm⟩
  | eval => exact heedless.elim
  | parse => exact heedless.elim

def Invocation.Plain (host : Host H) (call : Invocation H) : Prop :=
  (host.natives call.key call.args).Heedless ∧ call.LeavesInput host

/-! ### The depth that a completion needs -/

/-- What completes needs the depth `n`: under limits that allow it it completes, in the same way
under all of them, and lower ones stop it. -/
structure Needs (host : Host H) (name : String) (out : Except Fault Move × Scene) (state : H)
    (phase : Phase) (s' : Session) (state' : H) (n : Nat) : Prop where
  depth : out.2.session.depth ≤ n
  fits : ∀ limits : Limits, n ≤ limits.maxDepth → ∃ cs,
    Completes host name (out.1, out.2.under limits) state (.ok phase) { s' with limits } state' cs
  stops : ∀ limits : Limits, out.2.session.depth ≤ limits.maxDepth → limits.maxDepth < n →
    ∃ s'' state'' cs, Completes host name (out.1, out.2.under limits) state
      (.error { cause := .recursionLimit }) s'' state'' cs

section Needs

variable {name : String} {scene : Scene} {state state₁ state' : H} {self inner : Frame}
  {phase inside : Phase} {s₁ s' : Session} {n m : Nat}

theorem Needs.done : Needs host name (.ok (.done phase), scene) state phase scene.session.leave
    (host.absorb (.done name phase :: scene.journal) state) scene.session.depth where
  depth := Nat.le_refl _
  fits := fun _ _ => ⟨_, .done⟩
  stops := fun _ fits full => absurd fits (Nat.not_le.mpr full)

theorem Needs.stay (h : Needs host self.name (self.act none scene.session)
      (host.absorb scene.journal state) phase s' state' n) :
    Needs host name (.ok (.stay self), scene) state phase s' state' n := by
  have kept := (self.act_depth none scene.session).1
  have under := fun limits => self.act_under none scene.session limits
  refine ⟨kept ▸ h.depth, fun limits fits => ?_, fun limits fits full => ?_⟩
  · obtain ⟨cs, comp⟩ := h.fits limits fits
    exact ⟨cs, .stay (under limits ▸ comp)⟩
  · obtain ⟨s'', state'', cs, comp⟩ := h.stops limits (kept ▸ fits) full
    exact ⟨s'', state'', cs, .stay (under limits ▸ comp)⟩

theorem Needs.push
    (h : Needs host inner.name (inner.act none scene.session.enter)
      (host.absorb (.push self.name inner.name (scene.session.depth + 1) :: scene.journal) state)
      inside s₁ state₁ n)
    (k : Needs host self.name (self.act (some inside) s₁) state₁ phase s' state' m)
    (back : s₁.depth = scene.session.depth) :
    Needs host name (.ok (.push self inner), scene) state phase s' state' (max n m) := by
  have kept := (inner.act_depth none scene.session.enter).1
  have kept' := (self.act_depth (some inside) s₁).1
  have deep : scene.session.depth + 1 ≤ n := by
    have := h.depth
    rwa [kept] at this
  have under := fun limits => inner.act_under none scene.session.enter limits
  have under' := fun limits => self.act_under (some inside) s₁ limits
  refine ⟨by simp only; omega, fun limits fits => ?_, fun limits fits full => ?_⟩
  · obtain ⟨cs, comp⟩ := h.fits limits (by omega)
    obtain ⟨ds, comp'⟩ := k.fits limits (by omega)
    have room : (scene.under limits).session.depth < (scene.under limits).session.limits.maxDepth :=
      show scene.session.depth < limits.maxDepth by omega
    exact ⟨cs ++ ds, .push room (under limits ▸ comp) (under' limits ▸ comp')⟩
  · by_cases room : scene.session.depth < limits.maxDepth
    · by_cases inFull : limits.maxDepth < n
      · obtain ⟨s'', state'', cs, comp⟩ := h.stops limits (by rw [kept]; exact room) inFull
        exact ⟨s'', state'', cs, .pushFault room (under limits ▸ comp)⟩
      · obtain ⟨cs, comp⟩ := h.fits limits (by omega)
        obtain ⟨s'', state'', ds, comp'⟩ :=
          k.stops limits (by rw [kept', back]; exact fits) (by omega)
        exact ⟨s'', state'', cs ++ ds, .push room (under limits ▸ comp) (under' limits ▸ comp')⟩
    · exact ⟨_, _, _, .limit (Nat.not_lt.mp room)⟩

theorem Needs.invoke {target : Callable} {args : List String} {saved : Option Call}
    (heedless : (host.natives target.key args).Heedless)
    (ends : Ends host (host.natives target.key args) scene.session
      (host.absorb scene.journal state) (.ok ()) s₁ state₁) :
    Needs host name (.ok (.invoke target args saved), scene) state .exprDone
      { s₁ with call := saved }.leave (host.absorb [.done "call" .exprDone] state₁)
      scene.session.depth where
  depth := Nat.le_refl _
  fits := by
    intro limits _
    have comp : Completes host name (.ok (.invoke target args saved), scene.under limits) state
        (.ok .exprDone) { { s₁ with limits } with call := saved }.leave _ _ :=
      .invoke (ends.under heedless limits)
    exact ⟨_, comp⟩
  stops := fun _ fits full => absurd fits (Nat.not_le.mpr full)

end Needs

/-- Where no `return` comes through, there is no loop to come back to. -/
theorem firstPass_of_single {f : Frame} (single : f.mayReturn = false) : f.FirstPass := by
  obtain ⟨flags, construct⟩ := f
  cases construct with
  | loop => cases single
  | _ => trivial

/-- The shadow of such a frame makes the same move. -/
theorem act_abreast {f : Frame} {inner : Option Phase} {s t : Session} {move : Move} {scene : Scene}
    (single : f.mayReturn = false) (hinner : inner ≠ some .ret) (abreast : s.Abreast t)
    (hact : f.act inner s = (.ok move, scene)) :
    ∃ last, f.shadow.act inner t = (.ok move.shadow, last) ∧ move.Orderly false ∧
      scene.session.Abreast last.session := by
  obtain ⟨move', last, hact', shadowed⟩ :=
    Frame.act_follows (firstPass_of_single single) hinner abreast hact
  rw [single] at shadowed
  cases shadowed with
  | returned returns => cases returns
  | loops returns => cases returns
  | abreast orderly even => exact ⟨last, hact', orderly, even⟩

/-- A completion of a frame that no `return` comes through needs as much depth as its shadow takes,
which only reads. -/
theorem Completes.needs {name : String} {out : Except Fault Move × Scene} {state state' : H}
    {phase : Phase} {s' : Session} {cs : List (Invocation H)}
    (h : Completes host name out state (.ok phase) s' state' cs) {f : Frame}
    {inner : Option Phase} {s t : Session} (hout : f.act inner s = out)
    (single : f.mayReturn = false) (hinner : inner ≠ some .ret)
    (plain : ∀ call ∈ cs, call.Plain host) (abreast : s.Abreast t) :
    phase ≠ .ret ∧ ∃ n move scene t', f.shadow.act inner t = (.ok move, scene) ∧
      move.Climbs scene.session phase t' n ∧ s'.Abreast t' ∧
      Needs host name out state phase s' state' n := by
  induction h using Completes.ok_induction generalizing f inner s t with
  | done =>
    obtain ⟨last, hact, orderly, even⟩ := act_abreast single hinner abreast hout
    refine ⟨orderly, _, _, last, _, hact, .done, even.leave, ?_⟩
    rw [even.depth]
    exact .done
  | stay _ ih =>
    obtain ⟨last, hact, ⟨alone, -⟩, even⟩ := act_abreast single hinner abreast hout
    obtain ⟨notRet, n, move', last', t', hact', climbs, even', needs⟩ :=
      ih rfl alone (by simp) plain even
    exact ⟨notRet, n, _, last, t', hact, .stay hact' climbs, even', .stay needs⟩
  | @push _ scene _ self child inside s₁ _ _ _ _ _ _ room comp₁ comp₂ ih₁ ih₂ =>
    obtain ⟨last, hact, ⟨alone, -, -, relays⟩, even⟩ := act_abreast single hinner abreast hout
    have childAlone : child.mayReturn = false := by
      cases through : child.mayReturn with
      | false => rfl
      | true => exact (Frame.mayReturn_of_relays (relays through)).symm.trans alone
    obtain ⟨notRet, n, move₁, last₁, t₁, hact₁, climbs₁, even₁, needs₁⟩ :=
      ih₁ rfl childAlone (by simp) (fun call h => plain call (by simp [h])) even.enter
    obtain ⟨notRet', m, move₂, last₂, t', hact₂, climbs₂, even', needs₂⟩ :=
      ih₂ rfl alone (by simpa using notRet) (fun call h => plain call (by simp [h])) even₁
    have back : s₁.depth = scene.session.depth := by
      rw [comp₁.depth.1, (child.act_depth none scene.session.enter).1]
      rfl
    exact ⟨notRet', max n m, _, last, t', hact, .push hact₁ climbs₁ hact₂ climbs₂, even',
      .push needs₁ needs₂ back⟩
  | invoke ends =>
    obtain ⟨last, hact, -, even⟩ := act_abreast single hinner abreast hout
    obtain ⟨depth, limits⟩ := ends.depth
    obtain ⟨heedless, leaves⟩ := plain _ (List.mem_singleton_self _)
    have input := leaves _ _ _ ends
    refine ⟨by simp, _, _, last, _, hact, .done, ⟨even.input.trans input.symm,
      congrArg (· - 1) (even.depth.trans depth.symm), even.limits.trans limits.symm⟩, ?_⟩
    rw [even.depth]
    exact .invoke heedless ends

end Machine

/-! ### Expressions as scripts -/

/-- Where there is no newline, it does not matter whether newlines count. -/
theorem Lexer.next_newlines {skip : Nat} {p : Position} {bs : List UInt8}
    (h : (next true skip p bs).1.kind ≠ .newline) (newlines : Bool) :
    next newlines skip p bs = next true skip p bs := by
  cases newlines with
  | true => rfl
  | false =>
    rcases next_past_newline (rfl : next true skip p bs = (_, _, _)) with same | ⟨newline, -⟩
    · exact same
    · exact absurd newline h

namespace Input

theorem next_of_stmt {i j : Input} {t : Token} (h : i.next .stmt = (t, j))
    (line : t.kind ≠ .newline) (phase : Phase) : i.next phase = (t, j) := by
  obtain ⟨rest, position, putback⟩ := i
  cases putback with
  | some t' => exact h
  | none =>
    have first : (Lexer.next true 0 position rest).1 = t := congrArg Prod.fst h
    rw [← h]
    simp only [next, Lexer.next_newlines (first ▸ line) phase.readsNewlines]
    rfl

/-- A script without newlines is read the same in any phase. -/
theorem Lexes.streams {i : Input} {ts : List Token} (h : i.Lexes ts)
    (line : ∀ t ∈ ts, t.kind ≠ .newline) :
    ∃ j t behind, i.Streams ts j ∧ (∀ phase, j.next phase = (t, behind)) ∧ t.kind = .eof := by
  induction h with
  | last read ends => exact ⟨_, _, _, streams_refl _, next_of_stmt read (by simp [ends]), ends⟩
  | more read _ _ ih =>
    obtain ⟨j, t, behind, streams, last, ends⟩ := ih fun t ht => line t (by simp [ht])
    exact ⟨j, t, behind, ⟨_, next_of_stmt read (line _ (by simp)), streams⟩, last, ends⟩

theorem Streams.lexes {i j behind : Input} {ts : List Token} {t : Token} (h : i.Streams ts j)
    (last : j.next .stmt = (t, behind)) (ends : t.kind = .eof)
    (more : ∀ t ∈ ts, t.kind ≠ .eof) : i.Lexes ts := by
  induction ts generalizing i with
  | nil => exact .last ((h .stmt).trans last) ends
  | cons u us ih =>
    obtain ⟨i', read, streams⟩ := h
    exact .more (read .stmt) (more u (by simp)) (ih streams fun t ht => more t (by simp [ht]))

structure Last (j : Input) (t : Token) (behind rest : Input) : Prop where
  next : ∀ phase, j.next phase = (t, behind)
  kind : t.kind = .semicolon ∧ rest = behind ∨ t.kind = .eof ∧ rest = behind.unread t
  ended : ∃ u k, rest.next .stmt = (u, k) ∧ u.kind = .eof

namespace Last

variable {j behind rest : Input} {t : Token} (h : j.Last t behind rest)
include h

theorem valid : t.kind ≠ .error := by
  rcases h.kind with ⟨kind, -⟩ | ⟨kind, -⟩ <;> simp [kind]

theorem quiet : t.kind.isQuiet = true := by
  rcases h.kind with ⟨kind, -⟩ | ⟨kind, -⟩ <;> simp [kind, Token.Kind.isQuiet]

theorem ends : t.kind.endsCond = true := by
  rcases h.kind with ⟨kind, -⟩ | ⟨kind, -⟩ <;> simp [kind, Token.Kind.endsCond]

end Last

end Input

namespace Syntax

/-- The script is the statement that consists of this expression, with a semicolon or without. -/
def Cond.Spells (e : Cond) (script : String) : Prop :=
  (Input.ofScript script).Lexes (e.lexemes.map Lexeme.token) ∨
    (Input.ofScript script).Lexes (e.lexemes.map Lexeme.token ++ [.symbol .semicolon])

theorem token_plain {l : Lexeme} : l.token.kind ≠ .newline ∧ l.token.kind ≠ .eof := by
  cases l with
  | symbol kind fixed => exact ⟨Token.Kind.ne_of_test fixed rfl, Token.Kind.ne_of_test fixed rfl⟩
  | _ => simp [Lexeme.token]

/-- The lexemes with blanks between them are such a script. -/
theorem Cond.spells_render (e : Cond) : e.Spells (Lexeme.render e.lexemes) := by
  have gap : Lexer.Gap [] := by rintro _ ⟨⟩
  have read := Lexeme.streams_render gap {} e.spaced_alone
  rw [List.append_nil] at read
  refine .inl (read.lexes rfl rfl ?_)
  simp only [List.mem_map]
  rintro _ ⟨l, _, rfl⟩
  exact token_plain.2

theorem Cond.Spells.streams {e : Cond} {script : String} (h : e.Spells script) :
    ∃ j t behind rest, (Input.ofScript script).Streams (e.lexemes.map Lexeme.token) j ∧
      j.Last t behind rest := by
  have line : ∀ t ∈ e.lexemes.map Lexeme.token, t.kind ≠ .newline := by
    simp only [List.mem_map]
    rintro _ ⟨l, _, rfl⟩
    exact token_plain.1
  rcases h with lexed | lexed
  · obtain ⟨j, t, behind, streams, next, ends⟩ := lexed.streams line
    exact ⟨j, t, behind, _, streams, next, .inr ⟨ends, rfl⟩, t, _, rfl, ends⟩
  · have more : ∀ t ∈ e.lexemes.map Lexeme.token ++ [.symbol .semicolon], t.kind ≠ .newline := by
      intro t ht
      rcases List.mem_append.mp ht with ht | ht
      · exact line t ht
      · obtain rfl := List.mem_singleton.mp ht
        simp [Token.symbol]
    obtain ⟨k, u, behind', streams, next, ends⟩ := lexed.streams more
    obtain ⟨j, streams, behind, read, place⟩ := streams.split
    exact ⟨j, _, behind, behind, streams, read, .inl ⟨rfl, rfl⟩, u, behind',
      (place .stmt).trans (next .stmt), ends⟩

end Syntax

namespace Frame

open Act Syntax

variable {flags : Flags} {s : Session} {t : Token} {j behind rest : Input}

/-- A statement that starts as an expression does is read as one. -/
theorem newStatement_expr (flags : Flags) (c : Cond)
    (read : s.input.Streams (c.lexemes.map Lexeme.token) j) :
    ∃ i t, ((newStatement flags).step none).Gives s
        (.push ⟨flags, .statement (.forward true)⟩ (newSimple flags true))
        { s with input := i, token := t } ∧
      i.Streams (c.lexemes.map Lexeme.token) j := by
  obtain ⟨t, i, next, starts, valid, again⟩ := c.starts.peek read
  refine ⟨i.unread t, t, (gives_nextToken (next _) valid).bind ?_, again⟩
  show (openStatement flags t).Gives _ _ _
  rw [openStatement_expr flags starts]
  exact (gives_update _ _).bind (gives_pure _ _)

theorem newStatement_eof (flags : Flags) (next : s.input.next .stmt = (t, behind))
    (ends : t.kind = .eof) :
    ((newStatement flags).step none).Gives s (.done .eof)
      { s with input := behind, token := t } := by
  refine (gives_nextToken next (by simp [ends])).bind ?_
  simp only [openStatement, ends]
  exact gives_pure _ _

theorem terminate_last (last : j.Last t behind rest)
    (place : s.input.next .stmtDone = (t, behind)) :
    terminate.Gives s (.done .stmtDone) { s with input := rest, token := t } := by
  rcases last.kind with ⟨kind, rfl⟩ | ⟨kind, rfl⟩
  · refine (gives_nextToken place (by simp [kind])).bind ?_
    simp only [kind]
    exact gives_pure _ _
  · refine (gives_nextToken place (by simp [kind])).bind ?_
    simp only [kind]
    exact (gives_update _ _).bind (gives_pure _ _)

end Frame

namespace Machine

open Scriptlet.Frame Syntax

variable {H : Type} {host : Host H}

/-- An expression statement that completes needs the depth of its tree, and the two frames below
it. -/
theorem statement_needs {s s' : Session} {state state' : H} {phase : Phase}
    {cs : List (Invocation H)} {c : Cond} {j behind rest : Input} {t : Token}
    (read : s.input.Streams (c.lexemes.map Lexeme.token) j) (last : j.Last t behind rest)
    (h : Completes host "stmt" ((newStatement .execute).act none s.enter) state (.ok phase) s'
      state' cs) (plain : ∀ call ∈ cs, call.Plain host) :
    phase = .stmtDone ∧ s'.input = rest ∧
      Needs host "stmt" ((newStatement .execute).act none s.enter) state .stmtDone s' state'
        (s.depth + (5 + c.extra)) := by
  obtain ⟨i, t₀, opens, read⟩ := newStatement_expr .execute (s := s.enter) c read
  obtain ⟨journal, opens⟩ := opens []
  rw [show (newStatement .execute).act none s.enter = _ from opens] at h ⊢
  cases h with
  | @push _ _ _ _ _ inside s₁ state₁ _ _ _ cs ds room comp₁ comp₂ =>
    obtain ⟨-, n, move, scene, t', hact, climbs, even, needs⟩ :=
      comp₁.needs rfl rfl (by simp) (fun call h => plain call (by simp [h])) (.refl _)
    obtain ⟨move', s₂, reads, climbs'⟩ := c.simple_climbs true
      (s := { s.enter with input := i, token := t₀ }) read last.next last.valid last.quiet last.ends
    obtain ⟨_, reads⟩ := reads []
    cases hact.symm.trans reads
    obtain ⟨rfl, rfl, rfl⟩ := climbs'.unique climbs
    have place : s₁.input.next .stmtDone = (t, behind) := by
      rw [← even.input]
      exact Input.next_unread_next (last.next .stmt) _
    have closing : (Frame.step ⟨.execute, .statement (.forward true)⟩ (some .exprDone)).Gives s₁
        (.done .stmtDone) { s₁ with input := rest, token := t } := terminate_last last place
    obtain ⟨_, closing⟩ := closing []
    have back : s₁.depth = s.depth + 1 := even.depth.symm
    have deep : s.depth + (5 + c.extra) = max (s.depth + 1 + 4 + c.extra) s₁.depth := by omega
    rw [show Frame.act _ _ s₁ = _ from closing] at comp₂
    cases comp₂
    refine ⟨rfl, rfl, ?_⟩
    rw [deep]
    refine .push needs ?_ back
    rw [show Frame.act _ _ s₁ = _ from closing]
    exact .done

end Machine

namespace Session

open Machine Scriptlet.Frame Syntax

variable {H : Type} {host : Host H} {s s₁ : Session} {state state₁ : H} {t : Token} {k : Input}

theorem start_stmt : Frame.start .execute .stmt = .ok (newStatement .execute) := rfl

/-- What a statement needs decides how it is parsed under any limits. -/
theorem parse_of_needs {n : Nat}
    (needs : Needs host "stmt" ((newStatement .execute).act none s.enter) state .stmtDone s₁
      state₁ n) (limits : Limits) :
    (n ≤ limits.maxDepth → ∃ fuel, { s with limits }.parse host fuel state .stmt .execute =
      some ⟨.ok .stmtDone, { s₁ with limits, depth := s.depth }, state₁⟩) ∧
    (limits.maxDepth < n → ∃ fuel fault s' state',
      { s with limits }.parse host fuel state .stmt .execute = some ⟨.error fault, s', state'⟩ ∧
        fault.cause = .recursionLimit) := by
  have under := (newStatement .execute).act_under none s.enter limits
  have kept := ((newStatement .execute).act_depth none s.enter).1
  have deep : s.enter.depth ≤ n := kept ▸ needs.depth
  constructor
  · intro fits
    obtain ⟨cs, comp⟩ := needs.fits limits fits
    rw [← under] at comp
    have room : { s with limits }.depth < { s with limits }.limits.maxDepth :=
      Nat.lt_of_lt_of_le deep fits
    obtain ⟨fuel, enough⟩ := parse_of_completes room start_stmt comp
    exact ⟨fuel, (enough fuel (Nat.le_refl _)).1⟩
  · intro full
    by_cases room : s.depth < limits.maxDepth
    · obtain ⟨s', state', cs, comp⟩ := needs.stops limits (by rw [kept]; exact room) full
      rw [← under] at comp
      have room : { s with limits }.depth < { s with limits }.limits.maxDepth := room
      obtain ⟨fuel, enough⟩ := parse_of_completes room start_stmt comp
      exact ⟨fuel, _, _, _, (enough fuel (Nat.le_refl _)).1, Fault.cause_orLine _ _⟩
    · exact ⟨1, _, _, _, parse_full (s := { s with limits }) (Nat.not_lt.mp room) 0 state _ _,
        Fault.cause_orLine _ _⟩

/-- At the end of the script a statement finds just that. -/
theorem parse_eof (host : Host H) (room : s.depth < s.limits.maxDepth)
    (next : s.input.next .stmt = (t, k)) (ends : t.kind = .eof) (state : H) :
    ∃ fuel state', s.parse host fuel state .stmt .execute =
      some ⟨.ok .eof, { s with input := k, token := t }, state'⟩ := by
  obtain ⟨_, act⟩ := newStatement_eof .execute (s := s.enter) next ends []
  obtain ⟨state', comp⟩ : ∃ state', Completes host (newStatement .execute).name
      ((newStatement .execute).act none s.enter) state (.ok .eof) _ state' [] :=
    completes_done act state
  obtain ⟨fuel, enough⟩ := parse_of_completes room start_stmt comp
  exact ⟨fuel, state', (enough fuel (Nat.le_refl _)).1⟩

theorem eof_of_parse {phase : Phase} {fuel : Nat} (next : s.input.next .stmt = (t, k))
    (ends : t.kind = .eof)
    (h : s.parse host fuel state .stmt .execute = some ⟨.ok phase, s₁, state₁⟩) :
    phase = .eof ∧ s₁.result = s.result := by
  obtain ⟨_, act⟩ := newStatement_eof .execute (s := s.enter) next ends []
  obtain ⟨-, s₂, rfl, comp⟩ := completes_of_parse_ok start_stmt h
  rw [show (newStatement .execute).act none s.enter = _ from act] at comp
  generalize s.parseCalls host fuel state .stmt .execute = cs at comp
  cases comp
  exact ⟨rfl, rfl⟩

/-- The statements of a script that consists of one expression, under limits that let it succeed:
the expression, which needs the depth of its tree, and the end of the script. -/
theorem executes_expression {e : Cond} {j behind rest : Input} {state' : H} {s' : Session}
    {r : Except Fault Phase} {cs : List (Invocation H)} {value : String}
    (read : s.input.Streams (e.lexemes.map Lexeme.token) j) (last : j.Last t behind rest)
    (h : Executes host s state r s' state' cs) (ok : s'.verdict r = .ok value)
    (plain : ∀ call ∈ cs, call.Plain host) :
    ∃ s₁ state₁, s₁.input = rest ∧ s₁.result = value ∧
      Needs host "stmt" ((newStatement .execute).act none s.enter) state .stmtDone s₁ state₁
        (s.depth + (5 + e.extra)) := by
  obtain ⟨ends, rfl⟩ := last_of_verdict ok
  obtain ⟨phase, rfl⟩ : ∃ phase, r = .ok phase := by rcases ends with rfl | rfl <;> exact ⟨_, rfl⟩
  obtain ⟨u, k, found, eof⟩ := last.ended
  cases h with
  | last parsed other =>
    obtain ⟨-, s₂, rfl, comp⟩ := completes_of_parse_ok start_stmt parsed
    obtain ⟨rfl, -⟩ := statement_needs read last comp plain
    exact absurd rfl other
  | next parsed executes =>
    obtain ⟨-, s₂, rfl, comp⟩ := completes_of_parse_ok start_stmt parsed
    obtain ⟨-, rfl, needs⟩ := statement_needs read last comp fun call h => plain call (by simp [h])
    refine ⟨s₂, _, rfl, ?_, needs⟩
    cases executes with
    | last parsed' =>
      exact (eof_of_parse (s := { s₂ with depth := s.depth }) found eof parsed').2.symm
    | next parsed' =>
      cases (eof_of_parse (s := { s₂ with depth := s.depth }) found eof parsed').1

/-- The ceiling is exact for expressions. If the statement that consists of an expression succeeds
under some limits, then under any others it succeeds with the same value exactly when they allow
five constructs more than its tree has extra, on top of those already open, and fails at the ceiling
otherwise. The native functions that it calls evaluate no script, do not ask for the limits and
leave the script where it was. -/
theorem eval_depth_exact (host : Host H) (fuel : Nat) (s : Session) (state : H) (enclosed : Bool)
    (e : Cond) (script : String) (spelled : e.Spells script) (limits : Limits)
    (fin : Finished H .text) (value : String)
    (unlimited : { s with limits }.eval host fuel state enclosed script = some fin)
    (ok : fin.answer = .ok value)
    (plain : ∀ call ∈ { s with limits }.evalCalls host fuel state enclosed script,
      call.Plain host) :
    ∃ n, ∀ steps, n ≤ steps → ∃ last, s.eval host steps state enclosed script = some last ∧
      last.answer.mapError (·.cause) =
        if s.depth + (5 + e.extra) ≤ s.limits.maxDepth then .ok value
        else .error .recursionLimit := by
  obtain ⟨r, s', state', cs, m, executes, other, -, part, ends⟩ := executes_of_eval unlimited
  obtain ⟨j, t, behind, rest, read, last⟩ := spelled.streams
  obtain ⟨s₁, state₁, input, result, needs⟩ := executes_expression read last executes
    ((answer_of_last other ends).symm.trans ok) fun call h => plain call (part h)
  obtain ⟨fits, stops⟩ := parse_of_needs needs s.limits
  by_cases room : s.depth + (5 + e.extra) ≤ s.limits.maxDepth
  · obtain ⟨fuel₁, parsed₁⟩ := fits room
    obtain ⟨u, k, found, eof⟩ := last.ended
    rw [← input] at found
    have again : s.depth < s.limits.maxDepth := by omega
    obtain ⟨fuel₂, state₂, parsed₂⟩ :=
      parse_eof host (s := { s₁ with limits := s.limits, depth := s.depth }) again found eof state₁
    obtain ⟨n, enough⟩ := eval_of_executes (s := s) (.next parsed₁ (.last parsed₂ (by simp)))
      (by simp)
    refine ⟨n, fun steps le => ?_⟩
    obtain ⟨fin', evaluated, answer⟩ := enough steps le
    refine ⟨fin', evaluated, ?_⟩
    rw [if_pos room, answer, ← result]
    rfl
  · obtain ⟨fuel₁, fault, s₂, state₂, parsed₁, cause⟩ := stops (Nat.not_le.mp room)
    obtain ⟨n, enough⟩ := eval_of_executes (s := s) (.last parsed₁ (by simp)) (by simp)
    refine ⟨n, fun steps le => ?_⟩
    obtain ⟨fin', evaluated, answer⟩ := enough steps le
    refine ⟨fin', evaluated, ?_⟩
    rw [if_neg room, answer, ← cause]
    rfl

theorem eval_depth_exact_settled :
    let host : Host Unit :=
      { natives := fun _ args => .request (.setResult (args.headD "")) fun _ => .done () }
    let s : Session := { id := ⟨0, 1⟩, functions := Table.insert {} "f" ⟨"f", false⟩ }
    let operand : Term → Rel := fun t => .operand (.operand t)
    let f : Cond → Rel := fun c => operand (.call ⟨"f", rfl⟩ (.cons c .nil))
    let x : Cond := .operand (operand (.variable ⟨"x", rfl⟩))
    let e : Cond := .join (.operand (f (.operand (operand (.literal (.quoted "1"))))))
      ⟨.or, by decide⟩ (f (.operand (operand (.paren x))))
    let script := "f ( \"1\" ) || f ( ( x ) )"
    e.extra = 8 ∧ e.Spells script ∧
      (∃ n, ∀ steps, n ≤ steps → ∃ last,
        { s with limits := { maxDepth := 13 } }.eval host steps () false script = some last ∧
          last.answer.mapError (·.cause) = .ok "1") ∧
      ∃ n, ∀ steps, n ≤ steps → ∃ last,
        { s with limits := { maxDepth := 12 } }.eval host steps () false script = some last ∧
          last.answer.mapError (·.cause) = .error .recursionLimit := by
  intro host s operand f x e script
  have plain : ∀ call : Invocation Unit, call.Plain host := by
    refine fun call => ⟨⟨by simp, fun _ => trivial⟩, ?_⟩
    rintro answer s' state' ⟨n, h⟩
    match n with
    | 0 | 1 | 2 => cases h
    | n + 3 => cases h; rfl
  have written : Lexeme.render e.lexemes = script := by decide +kernel
  have spelled : e.Spells script := written ▸ e.spells_render
  have ends : (s.eval host 200 () false script).bind (·.answer.toOption) = some "1" := by
    decide +kernel
  obtain ⟨fin, unlimited, ok⟩ := Option.bind_eq_some_iff.mp ends
  have ok : fin.answer = .ok "1" := by
    generalize fin.answer = answer at ok
    cases answer with
    | error fault => cases ok
    | ok value => exact congrArg _ (Option.some.inj ok)
  exact ⟨by decide, spelled,
    eval_depth_exact host 200 { s with limits := { maxDepth := 13 } } () false e script spelled
      s.limits fin "1" unlimited ok fun call _ => plain call,
    eval_depth_exact host 200 { s with limits := { maxDepth := 12 } } () false e script spelled
      s.limits fin "1" unlimited ok fun call _ => plain call⟩

/-- Functions that evaluate no script can still take the machine deeper than the tree says, by
opening another script in its place or parsing one on the side, or make the outcome depend on the
limits, by asking for them. -/
theorem depth_inexact_unless_plain :
    let opens : Host Unit :=
      { natives := fun _ args => .request (.openScript (args.headD "")) fun _ => .done () }
    let parses : Host Unit :=
      { natives := fun _ _ => .request .saveInput fun input =>
          .request (.openScript "((1))") fun _ => .parse .cond .none fun parsed =>
            .request (.restoreInput input) fun _ =>
              match parsed with
              | .ok _ => .done ()
              | .error fault => .raise fault }
    let asks : Host Unit :=
      { natives := fun _ _ => .request .limits fun limits =>
          if limits.maxDepth < 50 then .raise { cause := .reported .type "shallow" } else .done () }
    let s : Session := { id := ⟨0, 1⟩, functions := Table.insert {} "f" ⟨"f", false⟩ }
    let e : Cond := .operand (.operand (.operand (.call ⟨"f", rfl⟩
      (.cons (.operand (.operand (.operand (.literal (.quoted "; ((1))"))))) .nil))))
    let script := "f ( \"; ((1))\" )"
    let outcome : Host Unit → Nat → Option (Fault.Cause ⊕ String) := fun host maxDepth =>
      (Session.eval host 300 { s with limits := { maxDepth } } () false script).map fun fin =>
        match fin.answer with
        | .error fault => .inl fault.cause
        | .ok value => .inr value
    e.Spells script ∧ s.depth = 0 ∧ 5 + e.extra = 10 ∧
      outcome opens 100 = some (.inr "1") ∧ outcome opens 10 = some (.inl .recursionLimit) ∧
      outcome parses 100 = some (.inr "") ∧ outcome parses 10 = some (.inl .recursionLimit) ∧
      outcome asks 100 = some (.inr "") ∧
      outcome asks 10 = some (.inl (.reported .type "shallow")) := by
  intro opens parses asks s e script outcome
  have written : Lexeme.render e.lexemes = script := by decide +kernel
  refine ⟨written ▸ e.spells_render, rfl, by decide, ?_, ?_, ?_, ?_, ?_, ?_⟩ <;> decide +kernel

end Session

end Scriptlet
