import Scriptlet.Proofs.Finishing
import Scriptlet.Proofs.Layout
import Scriptlet.Proofs.Reentrancy
import Scriptlet.Proofs.Rereading

/-!
Evaluation in pieces. A script and another one on the lines behind it can be evaluated as one, or
one after the other. What the first does it does either way, up to where it ends; from there both
evaluations go on in lockstep, whatever newlines lie between.
-/

namespace Scriptlet

/-! ### Behind the first script -/

structure Opens (more : List UInt8) : Prop where
  notElse : (Lexer.take true (bodyOf (Lexer.tokens 0 more))).1.kind ≠ .elseWord
  proper : (Lexer.take true (bodyOf (Lexer.tokens 0 more))).1.kind ≠ .error

theorem take_bodyOf (ts : List Token) : Lexer.take true (bodyOf ts) = Lexer.take false ts := by
  induction ts with
  | nil => rfl
  | cons t ts ih =>
    by_cases newline : t.kind = .newline
    · simpa [bodyOf, Lexer.take, newline] using ih
    · simp [bodyOf, Lexer.take, newline]

namespace Input

variable {more : List UInt8} {i j : Input}

theorem beyond_ofScript (script : String) : (ofScript script).Beyond (Utf8.encode script) :=
  beyond_of_tokens rfl rfl

/-- The end of the script is read where no token is left. -/
theorem eof_next {t : Token} {phase : Phase} (read : i.next phase = (t, j)) (ends : t.kind = .eof)
    (sound : ∀ t, i.putback = some t → t.kind = .eof → t = .eof ∧ i.tokens = []) :
    t = .eof ∧ j.tokens = [] := by
  cases back : i.putback with
  | some u =>
    obtain ⟨rest, position, putback⟩ := i
    obtain rfl : putback = some u := back
    obtain ⟨rfl, rfl⟩ := Prod.mk.inj read
    exact sound _ rfl ends
  | none =>
    have taken := take_tokens back phase
    rw [read] at taken
    obtain ⟨gap, -, -, ⟨last, -⟩ | ⟨u, rest, first, split⟩⟩ :=
      Lexer.take_split phase.readsNewlines i.tokens
    · exact Prod.mk.inj (taken.symm.trans last)
    · obtain ⟨rfl, -⟩ := Prod.mk.inj (taken.symm.trans first)
      exact absurd ends (not_eof_of_mem (i := i) (by simp [split]))

/-- Where newlines count, a reader behind the first script gets one of them or the first token of
the second. -/
theorem Beyond.next {t : Token} (h : i.Beyond more) (read : i.next .stmt = (t, j)) :
    j.putback = none ∧
      ((t.kind = .newline ∧ j.Beyond more ∧ j.ahead.length < i.ahead.length) ∨
        t.kind ≠ .newline ∧ Lexer.take true (bodyOf (Lexer.tokens 0 more)) = (t, j.tokens)) := by
  have fresh : j.putback = none := by
    have empty := i.putback_next .stmt
    rwa [read] at empty
  refine ⟨fresh, ?_⟩
  have body := h.body
  obtain ⟨gap, -, none, ⟨ends, split⟩ | ⟨proper, split⟩⟩ := ahead_next read
  · obtain ⟨rfl, left⟩ := eof_next read ends h.sound
    rw [none rfl, ahead_eq_tokens fresh, left] at split
    rw [split] at body
    refine .inr ⟨by decide, ?_⟩
    rw [← body, left]
    rfl
  · rw [none rfl, List.nil_append, ahead_eq_tokens fresh] at split
    rw [split] at body
    by_cases newline : t.kind = .newline
    · refine .inl ⟨newline, beyond_of_tokens fresh ?_, by simp [split, ahead_eq_tokens fresh]⟩
      simpa [bodyOf, newline] using body
    · refine .inr ⟨newline, ?_⟩
      rw [← body]
      simp [bodyOf, newline, Lexer.take]

/-- The first token of the second script may be read and put back. -/
theorem Beyond.of_unread {t : Token}
    (first : Lexer.take true (bodyOf (Lexer.tokens 0 more)) = (t, j.tokens)) :
    (j.unread t).Beyond more := by
  generalize body : bodyOf (Lexer.tokens 0 more) = ts at first
  cases ts with
  | nil =>
    obtain ⟨rfl, none⟩ := Prod.mk.inj first
    refine ⟨?_, ?_⟩
    · rintro _ ⟨⟩ _
      exact ⟨rfl, none.symm⟩
    · rw [ahead_unread, if_pos (show Token.eof.kind = .eof from rfl), ← none, body]
      rfl
  | cons u us =>
    obtain ⟨rfl, rest⟩ : u = t ∧ us = j.tokens := by simpa [Lexer.take] using first
    have inside : u ∈ bodyOf (Lexer.tokens 0 more) := by simp [body]
    have proper : u.kind ≠ .eof :=
      Lexer.not_eof_of_mem_tokens ((List.dropWhile_sublist _).mem inside)
    have other : u.kind ≠ .newline := by
      have head := List.head?_dropWhile_not (fun t : Token => decide (t.kind = .newline))
        (Lexer.tokens 0 more)
      rw [show List.dropWhile _ _ = u :: us from body] at head
      simpa using head
    refine ⟨?_, ?_⟩
    · rintro _ ⟨⟩ ends
      exact absurd ends proper
    · rw [ahead_unread, if_neg proper, body, ← rest]
      simp [bodyOf, other]

/-- A newline more in front makes no difference. -/
theorem Beyond.of_next {t : Token} (read : i.next .stmt = (t, j)) (newline : t.kind = .newline)
    (h : j.Beyond more) : i.Beyond more := by
  obtain ⟨gap, -, none, ⟨ends, -⟩ | ⟨proper, split⟩⟩ := ahead_next read
  · rw [newline] at ends
    cases ends
  · refine ⟨fun u back ends => ?_, ?_⟩
    · simp only [Input.next, back] at read
      obtain ⟨rfl, -⟩ := Prod.mk.inj read
      rw [newline] at ends
      cases ends
    · rw [split, none rfl, ← h.body]
      simp [bodyOf, newline]

/-- Where the shorter script has ended, the longer one is behind it. -/
theorem beyond_of_meets {t : Token} (meets : Frame.Site.between.Meets more i j) {i' : Input}
    (read : i.next .stmt = (t, i')) (ends : t.kind = .eof) : j.Beyond more := by
  rcases meets with leads | ⟨-, beyond⟩
  · rcases leads.next read (by simp [ends]) with ⟨more, -⟩ | ⟨-, -, behind⟩
    · exact absurd ends more
    · obtain ⟨fresh, tokens⟩ := behind rfl
      refine beyond_of_tokens fresh ?_
      rw [tokens]
      simp [bodyOf]
  · exact beyond

end Input

namespace Session.Parallel

variable {s t : Session}

theorem enter (h : s.Parallel t) : s.enter.Parallel t.enter := by
  obtain ⟨idle, input, token, rfl⟩ := h
  exact ⟨idle, input, token, rfl⟩

theorem leave (h : s.Parallel t) : s.leave.Parallel t.leave := by
  obtain ⟨idle, input, token, rfl⟩ := h
  exact ⟨idle, input, token, rfl⟩

end Session.Parallel

/-! ### Frames behind the first script -/

namespace Machine

open Scriptlet.Frame

variable {H : Type} {host : Host H} {more : List UInt8}

/-- Looking for an `else` behind the first script ends in front of the second. -/
theorem seek_beyond (opens : Opens more) {flags : Flags} {taken : Bool} {t : Session}
    (beyond : t.input.Beyond more) (state : H) :
    ∃ t' state', Completes host "if" ((⟨flags, .branch (.seekElse taken)⟩ : Frame).act none t) state
        (.ok .stmtDone) t' state' [] ∧
      t'.input.Beyond more ∧ ∃ input token, t' = { t.leave with input, token } := by
  generalize bound : t.input.ahead.length = n
  induction n using Nat.strongRecOn generalizing t state with
  | ind n ih =>
    rcases read : t.input.next .stmt with ⟨u, input⟩
    obtain ⟨-, ⟨newline, beyond', shorter⟩ | ⟨other, first⟩⟩ := beyond.next read
    · have proper : u.kind ≠ .error := by simp [newline]
      have act : (⟨flags, .branch (.seekElse taken)⟩ : Frame).act none t =
          (.ok (.stay ⟨flags, .branch (.seekElse taken)⟩),
            Act.took { session := t } .stmt u input) := by
        refine (Act.Carries.on_next read proper).trans ?_
        simp only [newline]
        rfl
      obtain ⟨t', state', comp, beyond, input', token, same⟩ :=
        ih _ (bound ▸ shorter) (t := { t with input, token := u }) beyond' _ rfl
      refine ⟨t', state', ?_, beyond, input', token, same⟩
      rw [act]
      exact .stay comp
    · have head : u = (Lexer.take true (bodyOf (Lexer.tokens 0 more))).1 := by rw [first]
      have proper : u.kind ≠ .error := head ▸ opens.proper
      have act : (⟨flags, .branch (.seekElse taken)⟩ : Frame).act none t =
          (.ok (.done .stmtDone),
            { Act.took { session := t } .stmt u input with
              session := { t with input := input.unread u, token := u } }) := by
        refine (Act.Carries.on_next read proper).trans ?_
        split
        · exact absurd ‹_› other
        · exact absurd ‹_› (head ▸ opens.notElse)
        · rfl
      obtain ⟨state', comp⟩ := completes_done act state
      exact ⟨_, state', comp, .of_unread first, input.unread u, u, rfl⟩

/-- A token that is no `else` is put back. -/
theorem seekElse_done {flags : Flags} {taken : Bool} {inner : Option Phase} {s : Session}
    {phase : Phase} {scene : Scene}
    (h : (⟨flags, .branch (.seekElse taken)⟩ : Frame).act inner s = (.ok (.done phase), scene)) :
    ∃ u input, s.input.next .stmt = (u, input) ∧
      scene.session = { s with input := input.unread u, token := u } := by
  rcases read : s.input.next .stmt with ⟨u, input⟩
  by_cases proper : u.kind = .error
  · have act := (Act.on_bind (Act.nextToken .stmt) _ _).symm.trans h
    rw [Act.on_nextToken read, if_pos proper] at act
    cases act
  · have act := (Act.Carries.on_next read proper).symm.trans h
    refine ⟨u, input, rfl, ?_⟩
    split at act
    · cases act
    · cases act
    · cases act
      rfl

/-- The shorter script has ended in front of a statement. Nothing has happened but that newlines
have been read, and the longer script is at the second one. -/
structure Concluded (more : List UInt8) (s s' t : Session) : Prop where
  kept : ∃ input token, s' = { s.leave with input, token }
  beyond : t.input.Beyond more

/-- It may have ended behind a newline. -/
theorem Concluded.of_newline {f : Frame} (may : f.MayEnd) {inner : Option Phase}
    {s s' t : Session} {self self' : Frame} {scene scene' : Scene}
    (h : Concluded more scene.session s' scene'.session)
    (hact : f.act inner s = (.ok (.stay self), scene))
    (hact' : f.act inner t = (.ok (.stay self'), scene')) : Concluded more s s' t := by
  obtain ⟨flags, construct⟩ := f
  obtain rfl : construct = .statement .start := may
  obtain ⟨u, input, read, -, -, same⟩ := newStatement_begins hact
  obtain rfl := same (by simp)
  obtain ⟨v, input', read', -, begins, same'⟩ := newStatement_begins hact'
  obtain rfl := same' (by simp)
  obtain ⟨⟨input₁, token₁, kept⟩, beyond⟩ := h
  refine ⟨⟨input₁, token₁, kept⟩, ?_⟩
  generalize newline : v.kind = kind at begins
  cases begins with
  | blank => exact .of_next read' newline beyond

inductive Carry (host : Host H) (more : List UInt8) (f g : Frame) (inner : Option Phase)
    (s t : Session) (stateT : H) (phase : Phase) (s' : Session) : Prop where
  /-- The frame is in brackets that the shorter script does not close. -/
  | stranded : f.exit = .inside → s'.input.ahead = [] →
      Carry host more f g inner s t stateT phase s'
  | concluded : phase = .eof → f.MayEnd → Concluded more s s' t →
      Carry host more f g inner s t stateT phase s'
  | onward {t' state'} : phase ≠ .eof →
      Completes host g.name (g.act inner t) stateT (.ok phase) t' state' [] → s'.Parallel t' →
      f.exit.Meets more s'.input t'.input → Carry host more f g inner s t stateT phase s'

section Carried

/-! A frame completes as its move does. -/

section Move

variable {name : String} {f self child : Frame} {inner : Option Phase} {s s₁ s' : Session}
  {scene : Scene} {phase : Phase} {state state₁ state' : H} {r : Except Fault Phase}
  {cs ds : List (Invocation H)}

theorem completes_stay (h : f.act inner s = (.ok (.stay self), scene))
    (comp : Completes host self.name (self.act none scene.session)
      (host.absorb scene.journal state) r s' state' cs) :
    Completes host name (f.act inner s) state r s' state' cs := by
  rw [h]
  exact .stay comp

theorem completes_push (h : f.act inner s = (.ok (.push self child), scene))
    (room : scene.session.depth < scene.session.limits.maxDepth)
    (comp₁ : Completes host child.name (child.act none scene.session.enter)
      (host.absorb (.push self.name child.name (scene.session.depth + 1) :: scene.journal) state)
      (.ok phase) s₁ state₁ cs)
    (comp₂ : Completes host self.name (self.act (some phase) s₁) state₁ r s' state' ds) :
    Completes host name (f.act inner s) state r s' state' (cs ++ ds) := by
  rw [h]
  exact .push room comp₁ comp₂

end Move

variable {f g : Frame} {inner : Option Phase} {s t : Session} {scene : Scene} {phase : Phase}

/-- A frame that is lost when it is done. -/
theorem carry_of_lost (opens : Opens more) (hact : f.act inner s = (.ok (.done phase), scene))
    (lost : f.Lost (.done phase) scene.session.input) (like : f.LikeIn more g)
    (parallel : s.Parallel t) (meets : f.site.Meets more s.input t.input) (stateT : H) :
    Carry host more f g inner s t stateT phase scene.session.leave := by
  cases lost with
  | inside site ahead => exact .stranded (exit_eq_inside.mpr site) ahead
  | ended may =>
    obtain ⟨flags, construct⟩ := f
    obtain rfl : construct = .statement .start := may
    obtain ⟨u, input, read, -, begins, same⟩ := newStatement_begins hact
    obtain rfl := same (by simp)
    generalize found : u.kind = kind at begins
    cases begins with
    | ended =>
      exact .concluded rfl rfl ⟨⟨input, u, rfl⟩, Input.beyond_of_meets meets read found⟩
  | @seeking taken _ construct spent =>
    obtain ⟨flags, construct'⟩ := f
    obtain rfl : construct' = .branch (.seekElse taken) := construct
    cases like
    obtain ⟨u, input, read, kept⟩ := seekElse_done hact
    have last : u.kind = .eof := by
      have back := spent.putback
      rw [kept] at back
      exact congrArg Token.kind (Option.some.inj back)
    obtain ⟨t', state', comp, beyond, input', token, same⟩ :=
      seek_beyond opens (Input.beyond_of_meets meets read last) stateT
    refine .onward (by simp) comp ?_ (.inr ⟨spent, beyond⟩)
    obtain ⟨idle, _, _, rfl⟩ := parallel
    rw [kept, same]
    exact ⟨idle, input', token, rfl⟩

/-- A frame that is done on the shorter script. -/
theorem carry_of_done (opens : Opens more) (hact : f.act inner s = (.ok (.done phase), scene))
    (executes : inner = some .ret → f.flags.executes = true) (like : f.LikeIn more g)
    (quiet : f.Silent) (parallel : s.Parallel t) (meets : f.site.Meets more s.input t.input)
    (stateT : H) : Carry host more f g inner s t stateT phase scene.session.leave := by
  have given (lost : f.Lost (.done phase) scene.session.input) :
      Carry host more f g inner s t stateT phase scene.session.leave :=
    carry_of_lost opens hact lost like parallel meets stateT
  by_cases ended : phase = .eof
  · subst ended
    have here : s.input.Sound False := nofun
    have finishes : f.Finishes .eof :=
      (Frame.act_heads (W := .ending False) f.anchored_false executes here
        (fun _ _ _ => trivial) hact).1
    exact given (.ended finishes.mayEnd)
  · rcases step_tracks like quiet inner { session := s } { session := t } parallel meets _ _ hact
      with lost | ⟨_, scene', act, parallel', carried⟩
    · exact given lost
    · cases carried with
      | done leaves =>
        obtain ⟨state', comp⟩ := completes_done act stateT
        exact .onward ended comp parallel'.leave leaves

/-- A frame that stays is carried as what it becomes. -/
theorem Carry.of_stay {self : Frame} {scene' : Scene} {stateT : H} {s' : Session}
    (carry : Carry host more self self none scene.session scene'.session
      (host.absorb scene'.journal stateT) phase s')
    (hact : f.act inner s = (.ok (.stay self), scene))
    (act : g.act inner t = (.ok (.stay self), scene')) (like : f.LikeIn more g)
    (may : self.MayEnd → self = f) (leaves : self.exit = f.exit) :
    Carry host more f g inner s t stateT phase s' := by
  cases carry with
  | stranded exit ahead => exact .stranded (leaves ▸ exit) ahead
  | concluded ended mayEnd concluded =>
    obtain rfl := may mayEnd
    cases like with
    | loop => cases mayEnd
    | same => exact .concluded ended mayEnd (concluded.of_newline mayEnd hact act)
  | onward more comp parallel meets =>
    exact .onward more (completes_stay act comp) parallel (leaves ▸ meets)

theorem likeIn_of_fresh (h : f.Fresh) : f.LikeIn more f := by
  obtain ⟨flags, construct⟩ := f
  rcases h with plain | begun
  · exact .same plain
  · obtain rfl : construct = .loop {} := begun
    exact .loop ⟨rfl, rfl, .none, .none, .none, .none⟩

section Push

variable {self child : Frame} {inside : Phase} {s₁ s' : Session} {name : String}
  {state state₁ state' : H}
  (hact : f.act inner s = (.ok (.push self child), scene))
  (loops : self.isLoop = true → f.isLoop = true) (poised : Poised host f s)
  (comp₁ : Completes host child.name (child.act none scene.session.enter) state (.ok inside) s₁
    state₁ [])
  (awaits : self.Awaits child)
  (comp₂ : Completes host name (self.act (some inside) s₁) state₁ (.ok phase) s' state' [])
include hact loops poised comp₁ awaits comp₂

/-- Behind brackets that are not closed a frame goes on only if it is in brackets itself. -/
theorem site_of_stranded (exit : child.exit = .inside) (ahead : s₁.input.ahead = []) :
    self.site = .inside := by
  rw [Awaits, exit] at awaits
  rcases awaits with site | insists | replays
  · exact site
  · exact absurd ahead (comp₂.insisted insists)
  · obtain ⟨flags, construct⟩ := f
    cases construct with
    | loop l =>
      obtain ⟨l', rfl, -⟩ := stepLoop_notes inner _ _ _ hact _ _ rfl
      exact absurd ahead (poised.replayed hact comp₁ replays)
    | _ =>
      obtain ⟨flags', construct'⟩ := self
      cases construct' with
      | loop l' => cases loops rfl
      | _ => cases replays

theorem poised_of_push : Poised host self s₁ := by
  cases loop : self.isLoop with
  | false => exact poised_of_plain loop
  | true =>
    have ahead : child.exit = .inside → s₁.input.ahead ≠ [] := by
      intro exit ends
      have site := site_of_stranded hact loops poised comp₁ awaits comp₂ exit ends
      obtain ⟨flags, construct⟩ := self
      cases construct with
      | loop l => cases site
      | _ => cases loop
    obtain ⟨flags, construct⟩ := f
    cases construct with
    | loop l =>
      obtain ⟨l', rfl, -⟩ := stepLoop_notes inner _ _ _ hact _ _ rfl
      exact poised.pushed hact comp₁ ahead
    | _ => cases loops loop

end Push

/-- The frame that waits is met where the frame it waits for has left the readers, unless it is in
brackets and the shorter script has ended. -/
theorem meets_of_awaits {self child : Frame} {i j : Input} (awaits : self.Awaits child)
    (meets : child.exit.Meets more i j) :
    self.site.Meets more i j ∨ self.site = .inside ∧ i.ahead = [] := by
  rcases meets with leads | behind
  · exact .inl (.inl leads)
  · unfold Awaits at awaits
    generalize child.exit = exit at awaits behind
    cases exit with
    | inside => exact behind.elim
    | between =>
      rw [awaits.1]
      exact .inl (.inr behind)
    | line =>
      cases site : self.site with
      | inside => exact .inr ⟨rfl, behind.1.ahead⟩
      | line => exact .inl (.inr behind)
      | between => exact absurd site awaits

/-- A frame that waits for a statement fails where that finds the end of the script. -/
theorem false_of_awaits {self child : Frame} {name : String} {s₁ s' : Session}
    {state₁ state' : H} (awaits : self.Awaits child) (mayEnd : child.MayEnd)
    (comp : Completes host name (self.act (some .eof) s₁) state₁ (.ok phase) s' state' []) :
    False := by
  have exit : child.exit = .between := by simp [Frame.exit, MayEnd.eq_1 child ▸ mayEnd]
  rw [Awaits, exit] at awaits
  obtain ⟨fault, scene, refused⟩ := awaits.2 mayEnd s₁
  rw [refused] at comp
  cases comp

section Pushed

variable {self self' child : Frame} {inside : Phase} {s₁ s' t₁ : Session}
  {state state₁ state' stateT : H}

/-- In brackets that the shorter script does not close a frame is stranded. -/
theorem carry_of_unclosed (site : self.site = .inside) (ahead : s₁.input.ahead = [])
    (leaves : self.exit = f.exit) {name : String}
    (comp : Completes host name (self.act (some inside) s₁) state₁ (.ok phase) s' state' []) :
    Carry host more f g inner s t stateT phase s' := by
  have exit : self.exit = .inside := exit_eq_inside.mpr site
  obtain ⟨-, ahead'⟩ := comp.exhausted (by simp [exit]) ahead
  exact .stranded (leaves ▸ exit) ahead'

/-- A frame that is lost when it pushes another one, and goes on behind it all the same. -/
theorem carry_of_lost_push (lost : f.Lost (.push self child) scene.session.input)
    (comp₁ : Completes host child.name (child.act none scene.session.enter) state (.ok inside) s₁
      state₁ [])
    (comp₂ : Completes host self.name (self.act (some inside) s₁) state₁ (.ok phase) s' state' []) :
    Carry host more f g inner s t stateT phase s' := by
  cases lost with
  | inside site ahead inside' =>
    obtain ⟨exit, exit'⟩ := inside'
    obtain ⟨-, ahead'⟩ := comp₁.exhausted (by simp [exit']) ahead
    obtain ⟨-, ahead''⟩ := comp₂.exhausted (by simp [exit]) ahead'
    exact .stranded (exit_eq_inside.mpr site) ahead''
  | owing ahead due exit =>
    obtain ⟨none, -⟩ := comp₁.exhausted exit ahead
    rw [due] at none
    cases none
  | calling executes => exact absurd rfl (comp₁.called executes)

/-- A frame that has pushed another one is carried as what waits for that. -/
theorem Carry.of_push {scene' : Scene}
    (carry : Carry host more self self' (some inside) s₁ t₁ state₁ phase s')
    (act : g.act inner t = (.ok (.push self' child), scene'))
    (room : scene'.session.depth < scene'.session.limits.maxDepth)
    (comp : Completes host child.name (child.act none scene'.session.enter)
      (host.absorb (.push self'.name child.name (scene'.session.depth + 1) :: scene'.journal) stateT)
      (.ok inside) t₁ state₁ [])
    (waits : ¬ self.MayEnd) (leaves : self.exit = f.exit) :
    Carry host more f g inner s t stateT phase s' := by
  cases carry with
  | stranded exit ahead => exact .stranded (leaves ▸ exit) ahead
  | concluded ended mayEnd => exact absurd mayEnd waits
  | onward more comp' parallel meets =>
    exact .onward more (completes_push act room comp comp') parallel (leaves ▸ meets)

end Pushed

theorem Completes.carried (opens : Opens more) {name : String} {out : Except Fault Move × Scene}
    {state state' : H} {s' : Session} {cs : List (Invocation H)}
    (h : Completes host name out state (.ok phase) s' state' cs) (hout : f.act inner s = out)
    (silent : cs = [])
    (executes : inner = some .ret → f.flags.executes = true) (like : f.LikeIn more g)
    (quiet : f.Silent) (poised : Poised host f s) (parallel : s.Parallel t)
    (meets : f.site.Meets more s.input t.input) (stateT : H) :
    Carry host more f g inner s t stateT phase s' := by
  induction h using Completes.ok_induction generalizing f g inner s t stateT with
  | invoke => cases silent
  | done => exact carry_of_done opens hout executes like quiet parallel meets stateT
  | @stay _ scene _ self phase _ _ _ comp ih =>
    rcases step_tracks like quiet inner { session := s } { session := t } parallel meets _ _ hout
      with lost | ⟨_, scene', act, parallel', carried⟩
    · cases lost with
      | inside _ _ lost => exact lost.elim
    · cases carried with
      | stay plain may quiet' leaves meets' =>
        have carry : Carry host more self self none scene.session scene'.session
            (host.absorb scene'.journal stateT) phase _ :=
          ih rfl silent nofun (.same plain) quiet' (poised_of_plain plain) parallel' meets' _
        exact carry.of_stay hout act like may leaves
  | @push _ scene _ self child inside s₁ _ phase s' _ _ _ room comp₁ comp₂ ih₁ ih₂ =>
    obtain ⟨rfl, rfl⟩ := List.append_eq_nil_iff.mp silent
    rcases step_tracks like quiet inner { session := s } { session := t } parallel meets _ _ hout
      with lost | ⟨_, scene', act, parallel', carried⟩
    · exact carry_of_lost_push lost comp₁ comp₂
    · cases carried with
      | @push _ self' _ _ _ like' loops fresh quiet₁ quiet₂ leaves awaits meets' =>
        have here : s.input.Sound False := nofun
        obtain ⟨⟨heir, waits, bears⟩, -⟩ := Frame.act_heads (W := .ending False) f.anchored_false
          executes here (fun _ _ _ => trivial) hout
        have finishes : Watched host (.ending False) child s₁ [] (.ok inside) :=
          comp₁.watched rfl (by simp) child.anchored_false nofun (fun _ _ _ => trivial) (by simp)
        have room' : scene'.session.depth < scene'.session.limits.maxDepth := by
          obtain ⟨-, input, token, same⟩ := parallel'
          rw [same]
          exact room
        rcases ih₁ rfl rfl nofun (likeIn_of_fresh fresh) quiet₂ (poised_of_fresh fresh)
          parallel'.enter meets' (host.absorb (.push self'.name child.name (scene'.session.depth + 1) ::
            scene'.journal) stateT) with
          ⟨exit, ahead⟩ | ⟨rfl, mayEnd, -⟩ | @⟨t₁, state₁', -, comp₁', parallel₁, meets₁⟩
        · have site := site_of_stranded hout loops poised comp₁ awaits comp₂ exit ahead
          exact carry_of_unclosed site ahead leaves comp₂
        · exact (false_of_awaits awaits mayEnd comp₂).elim
        · rcases meets_of_awaits awaits meets₁ with meets₂ | ⟨site, ahead⟩
          · have carry : Carry host more self self' (some inside) s₁ t₁ state₁' phase s' :=
              ih₂ rfl rfl (bears.returned heir finishes.1) like' quiet₁
                (poised_of_push hout loops poised comp₁ awaits comp₂) parallel₁ meets₂ state₁'
            exact carry.of_push act room' comp₁' waits leaves
          · exact carry_of_unclosed site ahead leaves comp₂

end Carried

/-! ### Scripts -/

/-- A statement that is parsed has completed. -/
theorem statement_completes {fuel : Nat} {s s' : Session} {state state' : H} {flags : Flags}
    {phase : Phase} (h : s.parse host fuel state .stmt flags = some ⟨.ok phase, s', state'⟩) :
    s.depth < s.limits.maxDepth ∧ ∃ s₀, s' = { s₀ with depth := s.depth } ∧
      Completes host "stmt" ((newStatement flags).act none s.enter) state (.ok phase) s₀ state'
        (s.parseCalls host fuel state .stmt flags) := by
  have room : s.depth < s.limits.maxDepth := by
    refine Nat.lt_of_not_le fun full => ?_
    cases fuel with
    | zero => cases h
    | succ fuel =>
      simp only [Session.parse, beginParse, if_pos full] at h
      cases h
  obtain ⟨r, s₀, state₀, fin, comp⟩ := Session.completes_of_parse room rfl h
  obtain ⟨answer, rfl, rfl⟩ := Finished.mk.inj fin
  cases r with
  | error fault => cases answer
  | ok phase' =>
    cases answer
    exact ⟨room, s₀, rfl, comp⟩

/-- What a frame does is all that a step sees of the session. -/
theorem run_congr (host : Host H) {s t : Session} {f : Frame} {inner : Option Phase}
    (same : f.act inner t = f.act inner s) (state : H) (base : Nat) (below : List Frame)
    (w : Waiting H .text .phase) (n : Nat) :
    run host n ⟨t, state, .drive base f below inner w⟩ =
        run host n ⟨s, state, .drive base f below inner w⟩ ∧
      calls host n ⟨t, state, .drive base f below inner w⟩ =
        calls host n ⟨s, state, .drive base f below inner w⟩ := by
  have act : (f.step inner).run.run { session := t } = (f.step inner).run.run { session := s } :=
    same
  have on : (f.step inner).on { session := t } = (f.step inner).on { session := s } := same
  have st : step host ⟨t, state, .drive base f below inner w⟩ =
      step host ⟨s, state, .drive base f below inner w⟩ := by
    simp only [step_drive, driveStep, act]
  have call : Config.call? host ⟨t, state, .drive base f below inner w⟩ =
      Config.call? host ⟨s, state, .drive base f below inner w⟩ := by
    simp only [Config.call?, on]
  cases n with
  | zero => exact ⟨rfl, rfl⟩
  | succ n => simp only [run, calls, st, call, and_self]

theorem statement_carried (opens : Opens more) {s s₀ t : Session} {state state' : H} {phase : Phase}
    {cs : List (Invocation H)}
    (comp : Completes host "stmt" ((newStatement .execute).act none s.enter) state (.ok phase) s₀
      state' cs) (silent : cs = []) (parallel : s.Parallel t)
    (meets : Site.between.Meets more s.input t.input) (stateT : H) :
    Carry host more (newStatement .execute) (newStatement .execute) none s.enter t.enter stateT
      phase s₀ :=
  comp.carried opens rfl silent nofun (.same rfl) trivial (poised_of_plain rfl) parallel.enter
    meets stateT

section Script

variable {input : Input} {saved : Option Call} {blocks : Nat}

/-- The shorter script is executed to its end. So is the longer one up to where the second script
begins, which finds the session as it is then. -/
theorem Executes.carried (opens : Opens more) {s s' t : Session} {state state' : H}
    {r : Except Fault Phase} {cs : List (Invocation H)} (h : Executes host s state r s' state' cs)
    (hr : r = .ok .eof) (silent : cs = []) (parallel : s.Parallel t)
    (meets : Site.between.Meets more s.input t.input) (stateT : H) :
    ∃ t' stateT', Reaches host (statementAt t stateT (.script input saved blocks .idle)) []
        (statementAt t' stateT' (.script input saved blocks .idle) : Config H .text) ∧
      s'.Parallel t' ∧ t'.input.Beyond more ∧ t'.depth < t'.limits.maxDepth := by
  induction h generalizing t stateT with
  | last parsed _ =>
    subst hr
    obtain ⟨room, s₀, rfl, comp⟩ := statement_completes parsed
    rcases statement_carried opens comp silent parallel meets stateT with
      ⟨exit, -⟩ | ⟨-, -, ⟨i, token, rfl⟩, beyond⟩ | ⟨more, -⟩
    · cases exit
    · obtain ⟨idle, j, token', rfl⟩ := parallel
      exact ⟨_, stateT, .refl _, ⟨idle, j, token', rfl⟩, beyond, room⟩
    · exact absurd rfl more
  | @next _ s _ _ _ _ _ _ _ parsed _ ih =>
    obtain ⟨silent₁, silent₂⟩ := List.append_eq_nil_iff.mp silent
    obtain ⟨room, s₀, rfl, comp⟩ := statement_completes parsed
    rcases statement_carried opens comp silent₁ parallel meets stateT with
      ⟨exit, -⟩ | ⟨ended, -⟩ | @⟨t₀, stateT', -, comp', parallel', meets'⟩
    · cases exit
    · cases ended
    · have depth : t.depth = s.depth ∧ t.limits = s.limits := by
        obtain ⟨-, _, _, rfl⟩ := parallel
        exact ⟨rfl, rfl⟩
      have room' : t.depth < t.limits.maxDepth := by rwa [depth.1, depth.2]
      have started : start .execute .stmt = .ok (newStatement .execute) := rfl
      obtain ⟨n, parses⟩ := Session.parse_of_completes room' started comp'
      obtain ⟨parsed', quiet⟩ := parses n (Nat.le_refl n)
      have there : { s₀ with depth := s.depth }.Parallel { t₀ with depth := t.depth } := by
        obtain ⟨idle, i, token, rfl⟩ := parallel'
        exact ⟨idle, i, token, by rw [depth.1]⟩
      obtain ⟨t', stateT₁, reaches, last⟩ := ih hr silent₂ there meets' stateT'
      refine ⟨t', stateT₁, ?_, last⟩
      have direct : (Waiting.idle : Waiting H .text .text).inNative = false := rfl
      have begins : Reaches host (statementAt t stateT (.script input saved blocks .idle)) _ _ :=
        statement_reaches direct parsed'
      rw [quiet] at begins
      exact begins.trans (.quiet (step_stmtDone _ _) rfl reaches)

/-- Newlines in front of the second script are passed over. -/
theorem reaches_second {u : Session} (beyond : u.input.Beyond more)
    (room : u.depth < u.limits.maxDepth) (state : H) {w : Waiting H .text .phase} :
    ∃ i token state', Reaches host (statementAt u state w) []
        (statementAt { u with input := i, token } state' w) ∧
      ∃ t j, i.next .stmt = (t, j) ∧
        Lexer.take true (bodyOf (Lexer.tokens 0 more)) = (t, j.tokens) := by
  generalize bound : u.input.ahead.length = n
  induction n using Nat.strongRecOn generalizing u state with
  | ind n ih =>
    rcases read : u.input.next .stmt with ⟨t, j⟩
    obtain ⟨-, ⟨newline, beyond', shorter⟩ | ⟨-, first⟩⟩ := beyond.next read
    · have proper : t.kind ≠ .error := by simp [newline]
      have act : (newStatement .execute).act none u.enter =
          (.ok (.stay (newStatement .execute)), Act.took { session := u.enter } .stmt t j) := by
        refine (Act.Carries.on_next read proper).trans ?_
        simp only [openStatement, newline]
        rfl
      obtain ⟨i, token, state', reaches, second⟩ :=
        ih _ (bound ▸ shorter) (u := { u with input := j, token := t }) beyond' room
          (host.absorb (Act.took { session := u.enter } .stmt t j).journal state) rfl
      refine ⟨i, token, state', ?_, second⟩
      have moved := statementAt_drive (s := { u with input := j, token := t }) room
        (host.absorb (Act.took { session := u.enter } .stmt t j).journal state) w
      rw [moved] at reaches
      rw [statementAt_drive room]
      exact .quiet (step_stay act) (call?_other act nofun) reaches
    · exact ⟨u.input, u.token, state, .refl _, t, j, read, first⟩

/-- It makes no difference whether the first token of a statement has been put back. -/
theorem statementAt_pulled {u : Session} (room : u.depth < u.limits.maxDepth) (i : Input)
    (state : H) (w : Waiting H .text .phase) (n : Nat) :
    run host n (statementAt { u with input := i.pulled .stmt } state w) =
        run host n (statementAt { u with input := i } state w) ∧
      calls host n (statementAt { u with input := i.pulled .stmt } state w) =
        calls host n (statementAt { u with input := i } state w) := by
  have same : (newStatement .execute).act none { u with input := i.pulled .stmt }.enter =
      (newStatement .execute).act none { u with input := i }.enter :=
    Act.on_next_pulled _ u.enter i
  have begins : ∀ i, statementAt { u with input := i } state w =
      ⟨{ u with input := i }.enter, state, .drive u.depth (newStatement .execute) [] none w⟩ :=
    fun i => statementAt_drive (s := { u with input := i }) room state w
  rw [begins, begins]
  exact run_congr host same state u.depth [] w n

/-- An evaluation comes to the first token of the second script, which can be read and put back. -/
theorem run_second {u : Session} (beyond : u.input.Beyond more)
    (room : u.depth < u.limits.maxDepth) (state : H) (w : Waiting H .text .phase) :
    ∃ i token state' k, i.putback = some (Lexer.take true (bodyOf (Lexer.tokens 0 more))).1 ∧
      i.tokens = (Lexer.take true (bodyOf (Lexer.tokens 0 more))).2 ∧
      ∀ m, run host (k + m) (statementAt u state w) =
          run host m (statementAt { u with input := i, token } state' w) ∧
        calls host (k + m) (statementAt u state w) =
          calls host m (statementAt { u with input := i, token } state' w) := by
  obtain ⟨i, token, state', reaches, t, j, read, first⟩ := reaches_second beyond room state
  obtain ⟨k, onward⟩ := reaches.run_eq
  refine ⟨i.pulled .stmt, token, state', k, ?_, ?_, fun m => ?_⟩
  · rw [Input.pulled, read, first]
    rfl
  · rw [Input.pulled, read, first]
    rfl
  · obtain ⟨runs, made⟩ := onward m
    obtain ⟨runs', made'⟩ := statementAt_pulled (u := { u with token }) room i state' w m
    exact ⟨runs.trans runs'.symm, made.trans made'.symm⟩

end Script

end Machine

theorem opens_of_first {script : String} (notElse : (Input.ofScript script).first.kind ≠ .elseWord)
    (proper : (Input.ofScript script).first.kind ≠ .error) : Opens (Utf8.encode script) := by
  suffices same : (Input.ofScript script).first =
      (Lexer.take true (bodyOf (Lexer.tokens 0 (Utf8.encode script)))).1 from
    ⟨same ▸ notElse, same ▸ proper⟩
  rcases read : (Input.ofScript script).next .stmt with ⟨t, j⟩
  obtain ⟨fresh, ⟨newline, beyond, -⟩ | ⟨other, first⟩⟩ := (Input.beyond_ofScript script).next read
  · have later : Lexer.take false j.tokens = ((j.next .expr).1, (j.next .expr).2.tokens) :=
      Input.take_tokens fresh .expr
    simp only [Input.first, read, if_pos newline]
    rw [← beyond.body, Input.ahead_eq_tokens fresh, take_bodyOf, later]
  · simp only [Input.first, read, if_neg other, first]

namespace Session

open Machine

variable {H : Type}

/-- An evaluation runs the statements of its script. -/
theorem eval_begun (host : Host H) (s : Session) (state : H) (script : String) :
    ∃ state', ∀ n,
      s.eval host n state false script = run host n (statementAt (s.begun false script) state'
        (.script s.input s.call s.scopes.depth .idle)) ∧
      s.evalCalls host n state false script =
        calls host n (statementAt (s.begun false script) state'
          (.script s.input s.call s.scopes.depth .idle)) := by
  have start := startEval_begun host s state false script (.idle : Waiting H .text .text)
  exact ⟨_, fun n => ⟨congrArg (run host n) start, congrArg (calls host n) start⟩⟩

section Pieces

variable {host : Host H} {s : Session} {state : H} {a b : String} {n : Nat}
  {fin₁ : Finished H .text} {value : String}
  (first : s.eval host n state false a = some fin₁) (succeeds : fin₁.answer = .ok value)
  (falls : s.evalReturns host n state false a = false)
  (silent : s.evalCalls host n state false a = [])
include first succeeds falls silent

/-- A first script that succeeds comes to its end. -/
theorem executes_of_first : ∃ s' state' state₀,
    Executes host (s.begun false a) state₀ (.ok .eof) s' state' [] ∧
      fin₁.session = { s' with input := s.input, call := s.call } := by
  obtain ⟨r, s', state', cs, m, executes, other, returned, part, rest⟩ := executes_of_eval first
  have verdict := answer_of_last other rest
  rw [succeeds] at verdict
  rw [silent] at part
  obtain rfl := List.eq_nil_of_subset_nil part
  obtain ⟨rfl | rfl, -⟩ := last_of_verdict verdict.symm
  · refine ⟨s', state', _, executes, ?_⟩
    rcases m with _ | _ | m
    · cases rest
    · cases rest
    · cases rest
      rfl
  · rw [returned rfl] at falls
    cases falls

/-- The evaluation of the whole and that of the second script come to configurations alike. -/
theorem pieces_twins (opens : Opens (Utf8.encode b)) :
    ∃ p q, ∃ c d : Config H .text, c.Twin false d ∧
      (∀ m, fin₁.session.eval host (q + m) fin₁.state false b = run host m c ∧
        fin₁.session.evalCalls host (q + m) fin₁.state false b = calls host m c) ∧
      ∀ m, s.eval host (p + m) state false (a ++ "\n" ++ b) = run host m d := by
  obtain ⟨s', state', state₀, executes, left⟩ := executes_of_first first succeeds falls silent
  have blocks : fin₁.session.scopes.depth = s.scopes.depth :=
    ScopeStack.depth_eq (eval_serials first (by simp [silent]))
  obtain ⟨stateW, startW⟩ := eval_begun host s state (a ++ "\n" ++ b)
  obtain ⟨stateB, startB⟩ := eval_begun host fin₁.session fin₁.state b
  have waits : (.script fin₁.session.input fin₁.session.call fin₁.session.scopes.depth .idle :
      Waiting H .text .phase) = .script s.input s.call s.scopes.depth .idle := by
    rw [blocks, left]
  rw [waits] at startB
  have parallel : (s.begun false a).Parallel (s.begun false (a ++ "\n" ++ b)) :=
    ⟨rfl, .ofScript (a ++ "\n" ++ b), s.token, rfl⟩
  obtain ⟨t, stateT, reaches, ⟨idle, _, _, there⟩, beyond, room⟩ :=
    executes.carried opens rfl rfl parallel (.inl (Input.Leads.ofScript a b)) stateW
  obtain ⟨p, onward⟩ := reaches.run_eq
  obtain ⟨i, token, stateT', k, putback, tokens, second⟩ := run_second beyond room stateT
    (.script s.input s.call s.scopes.depth .idle)
  have room' : (fin₁.session.begun false b).depth < (fin₁.session.begun false b).limits.maxDepth :=
    by rw [left]; rw [there] at room; exact room
  obtain ⟨i', token', stateB', q, putback', tokens', second'⟩ :=
    run_second (Input.beyond_ofScript b) room' stateB (.script s.input s.call s.scopes.depth .idle)
  have twin : { fin₁.session.begun false b with input := i', token := token' }.Twin false
      { t with input := i, token } := by
    rw [left, there]
    refine ⟨⟨?_, ?_⟩, rfl, rfl, idle, rfl, rfl, nofun⟩
    · rw [putback, putback']
    · rw [tokens, tokens']
  have direct : (.script s.input s.call s.scopes.depth .idle :
      Waiting H .text .phase).inNative = false := rfl
  refine ⟨p + k, q, _, _, beginParse_twins twin direct stateB' stateT', fun m => ?_, fun m => ?_⟩
  · exact ⟨(startB (q + m)).1.trans (second' m).1, (startB (q + m)).2.trans (second' m).2⟩
  · rw [Nat.add_assoc]
    exact ((startW (p + (k + m))).1.trans (onward (k + m)).1).trans (second m).1

end Pieces

/-- Evaluating in pieces is evaluating the whole. Where a first script succeeds without a `return`,
and the second begins neither with an `else` nor with a malformed token, both are evaluated as one
script just as they are one after the other, if they call no native function: that comes to its end
exactly if the second does, fails exactly if the second fails, and for the same cause, and leaves
the same tables and open blocks. -/
theorem eval_pieces (host : Host H) (s : Session) (state : H) (a b : String) (n : Nat)
    (fin₁ : Finished H .text) (value : String)
    (first : s.eval host n state false a = some fin₁) (succeeds : fin₁.answer = .ok value)
    (falls : s.evalReturns host n state false a = false)
    (silent₁ : s.evalCalls host n state false a = [])
    (silent₂ : ∀ m, fin₁.session.evalCalls host m fin₁.state false b = [])
    (notElse : (Input.ofScript b).first.kind ≠ .elseWord)
    (proper : (Input.ofScript b).first.kind ≠ .error) :
    let Same (fin fin₂ : Finished H .text) : Prop :=
      (fin.answer.mapError (·.cause)).map (fun _ => ()) =
          (fin₂.answer.mapError (·.cause)).map (fun _ => ()) ∧
        fin.session.scopes = fin₂.session.scopes
    (∀ m fin₂, fin₁.session.eval host m fin₁.state false b = some fin₂ →
      ∃ k fin, s.eval host k state false (a ++ "\n" ++ b) = some fin ∧ Same fin fin₂) ∧
    ∀ k fin, s.eval host k state false (a ++ "\n" ++ b) = some fin →
      ∃ m fin₂, fin₁.session.eval host m fin₁.state false b = some fin₂ ∧ Same fin fin₂ := by
  intro Same
  obtain ⟨p, q, c, d, twin, second, whole⟩ :=
    pieces_twins first succeeds falls silent₁ (opens_of_first notElse proper)
  have paired : ∀ m, Option.Rel (Finished.Twin false) (run host m c) (run host m d) := by
    intro m
    refine (run_twins twin ?_).2
    rw [← (second m).2]
    exact silent₂ (q + m)
  have same : ∀ fin₂ fin : Finished H .text, fin₂.Twin false fin → Same fin fin₂ := by
    rintro ⟨answer₂, s₂, _⟩ ⟨answer, s₁, _⟩ ⟨answers, session⟩
    refine ⟨?_, session.scopes⟩
    cases answers with
    | ok => rfl
    | error cause => exact congrArg Except.error cause
  refine ⟨fun m fin₂ ends => ?_, fun k fin ends => ?_⟩
  · have later : run host m c = some fin₂ := by
      rw [← (second m).1]
      exact (run_mono ends (Nat.le_add_left m q)).1
    have paired := paired m
    rw [later] at paired
    generalize ended : run host m d = o at paired
    cases paired with
    | @some _ fin twin => exact ⟨p + m, fin, (whole m).trans ended, same _ _ twin⟩
  · have later : run host k d = some fin := by
      rw [← whole k]
      exact (run_mono ends (Nat.le_add_left k p)).1
    have paired := paired k
    rw [later] at paired
    generalize ended : run host k c = o at paired
    cases paired with
    | @some fin₂ _ twin => exact ⟨q + k, fin₂, (second k).1.trans ended, same _ _ twin⟩

theorem eval_pieces_failing :
    let host : Host Unit := { natives := fun _ _ => .done () }
    let s : Session := { id := ⟨0, 1⟩, scopes := { globals := Table.insert {} "x" "0" } }
    let a := "for (i = 0; i < 3; i++) if (i > 0) x = x + i"
    let b := "\n// so far\nif (x == 3) \x7b var y = x; y + missing; \x7d"
    ∃ fin₁ fin₂ fault k fin, s.eval host 300 () false a = some fin₁ ∧
      fin₁.session.eval host 300 () false b = some fin₂ ∧ fin₂.answer = .error fault ∧
      fault.cause = .undefinedVariable "missing" ∧
      s.eval host k () false (a ++ "\n" ++ b) = some fin ∧
      (fin.answer.mapError (·.cause)).map (fun _ => ()) = .error fault.cause ∧
      fin.session.scopes = fin₂.session.scopes := by
  intro host s a b
  have ends : (s.eval host 300 () false a).bind (fun fin₁ => fin₁.answer.toOption.bind fun _ =>
      if (fin₁.session.evalCalls host 300 () false b).length = 0 then
        (fin₁.session.eval host 300 () false b).bind fun fin₂ =>
          match fin₂.answer with
          | .ok _ => none
          | .error fault => some fault.cause
      else none) = some (.undefinedVariable "missing") := by
    decide +kernel
  have silent₁ : s.evalCalls host 300 () false a = [] :=
    List.length_eq_zero_iff.mp (by decide +kernel)
  have falls : s.evalReturns host 300 () false a = false := by decide +kernel
  obtain ⟨fin₁, first, ends⟩ := Option.bind_eq_some_iff.mp ends
  obtain ⟨value, succeeds, ends⟩ := Option.bind_eq_some_iff.mp ends
  split at ends
  case isFalse => cases ends
  rename_i silent₂
  obtain ⟨fin₂, second, failed⟩ := Option.bind_eq_some_iff.mp ends
  have answered : fin₁.answer = .ok value := by
    generalize fin₁.answer = answer at succeeds
    cases answer with
    | ok text => exact congrArg _ (Option.some.inj succeeds)
    | error fault => cases succeeds
  have quiet : ∀ m, fin₁.session.evalCalls host m () false b = [] :=
    calls_eq_nil second (List.length_eq_zero_iff.mp silent₂)
  obtain ⟨k, fin, whole, cause, scopes⟩ := (eval_pieces host s () a b 300 fin₁ value first answered
    falls silent₁ quiet (by decide +kernel) (by decide +kernel)).1 300 fin₂ second
  generalize answered₂ : fin₂.answer = answer at failed cause
  cases answer with
  | ok text => cases failed
  | error fault =>
    exact ⟨fin₁, fin₂, fault, k, fin, first, second, answered₂, Option.some.inj failed, whole,
      cause, scopes⟩

end Session

end Scriptlet
