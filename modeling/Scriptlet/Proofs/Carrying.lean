import Scriptlet.Proofs.Appending
import Scriptlet.Proofs.Indifference
import Scriptlet.Proofs.Spending

/-!
Frames that read a script and frames that read it with more behind it. Where the shorter script
ends, the longer one has a newline, and a construct that a newline ends takes either for its end.
Elsewhere the frame of the shorter script is lost: in brackets, which it will not see closed, or
where another token is due.
-/

namespace Scriptlet

def Token.newline : Token := ⟨.newline, "\n"⟩

def bodyOf (ts : List Token) : List Token := ts.dropWhile (·.kind = .newline)

namespace Input

variable (more : List UInt8)

structure AtBreak (j : Input) : Prop where
  putback : j.putback = some .newline
  tokens : j.tokens = Lexer.tokens 0 more

/-- The reader is behind the first script, and may have passed some newlines. A token that it has
put back may be among those ahead. -/
structure Beyond (j : Input) : Prop where
  sound : ∀ t, j.putback = some t → t.kind = .eof → t = .eof ∧ j.tokens = []
  body : bodyOf j.ahead = bodyOf (Lexer.tokens 0 more)

structure Broken (i j : Input) : Prop where
  ended : i.Ended
  fresh : j.putback = none
  tokens : j.tokens = Lexer.tokens 0 more

variable {more}

theorem AtBreak.beyond {j : Input} (h : j.AtBreak more) : j.Beyond more := by
  refine ⟨?_, ?_⟩
  · rw [h.putback]
    rintro _ ⟨⟩ ⟨⟩
  · simp [ahead, h.putback, h.tokens, Option.filter, Token.newline, bodyOf]

theorem beyond_of_tokens {j : Input} (fresh : j.putback = none)
    (h : bodyOf j.tokens = bodyOf (Lexer.tokens 0 more)) : j.Beyond more := by
  refine ⟨?_, ?_⟩
  · rw [fresh]
    nofun
  · rw [ahead_eq_tokens fresh, h]

end Input

/-! ### Where constructs stand -/

/-- What a construct takes a newline for. -/
inductive Frame.Site where
  | inside
  | line
  | between
  deriving DecidableEq

namespace Frame

def Site.Meets (more : List UInt8) (site : Site) (i j : Input) : Prop :=
  i.Leads more j ∨
    match site with
    | .inside => False
    | .line => i.Spent ∧ j.AtBreak more
    | .between => i.Spent ∧ j.Beyond more

/-- At the end of a line both read the same token, or one finds the end and the other the
newline. -/
theorem Site.line_next {more : List UInt8} {i j i' : Input} {t : Token} {phase : Phase}
    (meets : Site.line.Meets more i j) (read : i.next phase = (t, i')) (proper : t.kind ≠ .error)
    (newlines : phase.readsNewlines = true) :
    (t.kind ≠ .eof ∧ ∃ j', j.next phase = (t, j') ∧ i'.Leads more j') ∨
      t = .eof ∧ ∃ j', j.next phase = (.newline, j') ∧ i'.Broken more j' := by
  rcases meets with leads | ⟨spent, atBreak⟩
  · rcases leads.next read proper with same | ⟨rfl, ended, behind⟩
    · exact .inl same
    · obtain ⟨fresh, tokens⟩ := behind newlines
      obtain ⟨j', read', fresh', tokens', -⟩ := Input.next_of_cons fresh phase newlines tokens
      exact .inr ⟨rfl, j', read', ended, fresh', tokens'⟩
  · obtain ⟨rfl, ended⟩ := spent.next read
    refine .inr ⟨rfl, { j with putback := none }, ?_, ended, rfl, atBreak.tokens⟩
    simp only [Input.next, atBreak.putback]

def Site.ofNewlines (nl : Bool) : Site := if nl then .line else .inside

def site (f : Frame) : Site :=
  match f.construct with
  | .statement (.forward true) | .returning | .call _ _ | .arguments => .line
  | .statement _ | .block _ | .branch _ | .loop _ => .between
  | .simple nl _ | .declarations nl | .declaration nl _ | .cond nl _ | .rel nl _ | .expr nl _ =>
    .ofNewlines nl

def exit (f : Frame) : Site :=
  match f.construct with
  | .statement _ => .between
  | _ => f.site

def Silent (f : Frame) : Prop :=
  match f.construct with
  | .call _ (.invoking (some _)) => False
  | .call _ _ | .arguments => f.flags.executes = false
  | _ => True

def insists (f : Frame) : Bool :=
  match f.construct with
  | .expr _ ⟨.afterParen, _, _⟩ | .branch .afterCondition | .arguments => true
  | .loop l => l.stage = .afterInit ∨ l.stage = .afterCondition ∨ l.stage = .afterIncrementScan
  | _ => false

def replays (f : Frame) : Bool :=
  match f.construct with
  | .loop l => l.stage = .afterIncrement ∨ l.stage = .afterLoopCondition
  | _ => false

def Awaits (self inner : Frame) : Prop :=
  match inner.exit with
  | .inside => self.site = .inside ∨ self.insists = true ∨ self.replays = true
  | .line => self.site ≠ .between
  | .between => self.site = .between ∧ (inner.MayEnd → self.WantsMore)

def Fresh (f : Frame) : Prop := f.isLoop = false ∨ f.construct = .loop {}

end Frame

def Move.Inside : Move → Prop
  | .push self inner => self.exit = .inside ∧ inner.exit = .inside
  | .done _ => True
  | _ => False

namespace Frame

/-- The frame cannot be done any more, or is done because its script is. -/
inductive Lost (f : Frame) : Move → Input → Prop where
  | inside {move i} : f.site = .inside → i.ahead = [] → move.Inside → Lost f move i
  | owing {self inner i} : i.ahead = [] → inner.due = 1 → inner.exit ≠ .between →
      Lost f (.push self inner) i
  | calling {self flags name i} : flags.executes = true →
      Lost f (.push self ⟨flags, .call name .opening⟩) i
  | ended {i} : f.MayEnd → Lost f (.done .eof) i
  | seeking {taken i} : f.construct = .branch (.seekElse taken) → i.Spent →
      Lost f (.done .stmtDone) i

abbrev LikeIn (more : List UInt8) : Frame → Frame → Prop := Like (Site.between.Meets more)

end Frame

inductive Move.Carried (more : List UInt8) (f : Frame) : Move → Move → Input → Input → Prop where
  | done {phase i j} : f.exit.Meets more i j → Carried more f (.done phase) (.done phase) i j
  | stay {self i j} : self.isLoop = false → (self.MayEnd → self = f) → self.Silent →
      self.exit = f.exit → self.site.Meets more i j → Carried more f (.stay self) (.stay self) i j
  | push {self self' inner i j} : self.LikeIn more self' → (self.isLoop = true → f.isLoop = true) →
      inner.Fresh → self.Silent → inner.Silent → self.exit = f.exit → self.Awaits inner →
      inner.site.Meets more i j → Carried more f (.push self inner) (.push self' inner) i j

theorem Move.Carried.wait {more : List UInt8} {f self inner : Frame} {i j : Input}
    (plain : self.isLoop = false) (fresh : inner.Fresh) (silent : self.Silent)
    (silent' : inner.Silent) (leaves : self.exit = f.exit) (awaits : self.Awaits inner)
    (meets : inner.site.Meets more i j) :
    Carried more f (.push self inner) (.push self inner) i j :=
  .push (.same plain) (by simp [plain]) fresh silent silent' leaves awaits meets

/-! ### Actions on both sides -/

/-- The second session reads another script; the rest is the same, and no call is under
construction. -/
def Session.Parallel (s t : Session) : Prop :=
  s.call = none ∧ ∃ input token, t = { s with input, token }

theorem Session.Parallel.took {scene scene' : Scene}
    (h : scene.session.Parallel scene'.session) (phase phase' : Phase) (t t' : Token)
    (i j : Input) :
    (Act.took scene phase t i).session.Parallel (Act.took scene' phase' t' j).session := by
  obtain ⟨idle, input, token, other⟩ := h
  exact ⟨idle, j, t', by simp only [Act.took, other]⟩

namespace Act

variable {α β γ : Type}

structure Blind (x : Act α) : Prop where
  keeps : x.Keeps Session.input
  same : ∀ scene scene' : Scene, scene.session.Parallel scene'.session →
    (x.on scene').1 = (x.on scene).1 ∧
      (x.on scene).2.session.Parallel (x.on scene').2.session

namespace Blind

theorem pure (a : α) : (pure a : Act α).Blind := ⟨.pure a, fun _ _ h => ⟨rfl, h⟩⟩

theorem fail (cause : Fault.Cause) : (fail cause : Act α).Blind :=
  ⟨.fail cause, fun _ _ h => ⟨rfl, h⟩⟩

theorem ofExcept (r : Except Fault.Cause α) : (ofExcept r).Blind := by
  cases r with
  | ok a => exact pure a
  | error cause => exact fail cause

theorem bind {x : Act α} {f : α → Act β} (hx : x.Blind) (hf : ∀ a, (f a).Blind) :
    (x >>= f).Blind := by
  refine ⟨.bind hx.keeps fun a => (hf a).keeps, fun scene scene' parallel => ?_⟩
  obtain ⟨answer, mid⟩ := hx.same scene scene' parallel
  rw [on_bind, on_bind]
  rcases h : x.on scene with ⟨r, last⟩
  rcases h' : x.on scene' with ⟨r', last'⟩
  rw [h, h'] at answer mid
  obtain rfl : r' = r := answer
  cases r' with
  | error fault => exact ⟨rfl, mid⟩
  | ok a => exact (hf a).same last last' mid

theorem ite {p : Prop} [Decidable p] {x y : Act α} (hx : x.Blind) (hy : y.Blind) :
    (if p then x else y).Blind := by
  split
  · exact hx
  · exact hy

/-- What is looked up is the same in both sessions. -/
theorem session_bind {f : Session → Act α} (h : ∀ s, (f s).Blind)
    (same : ∀ s input token, f { s with input, token } = f s) : (session >>= f).Blind := by
  refine ⟨.session_bind fun s => (h s).keeps, fun scene scene' parallel => ?_⟩
  obtain ⟨-, input, token, other⟩ := id parallel
  rw [on_bind, on_bind, on_session, on_session]
  have equal : f scene'.session = f scene.session := by rw [other, same]
  simp only [equal]
  exact (h scene.session).same scene scene' parallel

theorem update {u : Session → Session} (call : ∀ s, (u s).call = s.call)
    (same : ∀ s input token, u { s with input, token } = { u s with input, token })
    (keeps : ∀ s, (u s).input = s.input) : (update u).Blind := by
  refine ⟨.update keeps, ?_⟩
  rintro scene ⟨_, journal⟩ ⟨idle, input, token, rfl⟩
  exact ⟨rfl, (call _).trans idle, input, token, same scene.session input token⟩

theorem setResult (value : String) : (setResult value).Blind :=
  update (fun _ => rfl) (fun _ _ _ => rfl) fun _ => rfl

theorem takeResult : takeResult.Blind := by
  refine ⟨.takeResult fun _ _ => rfl, ?_⟩
  rintro scene ⟨_, journal⟩ ⟨idle, input, token, rfl⟩
  exact ⟨rfl, idle, input, token, rfl⟩

theorem readVariable (name : String) : (readVariable name).Blind := by
  refine session_bind (fun s => ?_) fun _ _ _ => rfl
  split
  · exact pure _
  · exact fail _

theorem openBlock : openBlock.Blind := by
  refine ⟨.openBlock fun _ _ => rfl, ?_⟩
  rintro scene ⟨_, journal⟩ ⟨idle, input, token, rfl⟩
  exact ⟨rfl, idle, input, token, rfl⟩

theorem closeBlock (id : BlockId) : (closeBlock id).Blind := by
  refine ⟨.closeBlock (fun _ _ => rfl) id, ?_⟩
  rintro scene ⟨_, journal⟩ ⟨idle, input, token, rfl⟩
  simp only [Act.closeBlock, on_bind, on_session, on_ofExcept]
  cases scene.session.scopes.close id with
  | error cause => exact ⟨rfl, idle, input, token, rfl⟩
  | ok scopes => exact ⟨rfl, idle, input, token, rfl⟩

theorem emit (e : Event) : (emit e).Blind := ⟨.emit e, fun _ _ h => ⟨rfl, h⟩⟩

end Blind

/-- Whenever `x` succeeds on the shorter script, it is lost or `y` succeeds on the longer one. Their
readers meet `pre` before, and `post` is about their answers and the readers after. -/
def Carries (pre : Input → Input → Prop) (lost : α → Input → Prop)
    (post : α → β → Input → Input → Prop) (x : Act α) (y : Act β) : Prop :=
  ∀ scene scene' : Scene, scene.session.Parallel scene'.session →
    pre scene.session.input scene'.session.input → ∀ a last, x.on scene = (.ok a, last) →
      lost a last.session.input ∨ ∃ b last', y.on scene' = (.ok b, last') ∧
        last.session.Parallel last'.session ∧
        post a b last.session.input last'.session.input

namespace Carries

variable {more : List UInt8} {pre : Input → Input → Prop} {lost : α → Input → Prop}
  {post : α → β → Input → Input → Prop}

theorem pure {a : α} {b : β} (h : ∀ i j, pre i j → lost a i ∨ post a b i j) :
    Carries pre lost post (pure a) (pure b) := by
  rintro scene scene' parallel meets _ _ ⟨⟩
  exact (h _ _ meets).imp_right fun holds => ⟨b, scene', rfl, parallel, holds⟩

theorem fail (cause : Fault.Cause) (y : Act β) : Carries pre lost post (fail cause) y := by
  rintro scene scene' _ _ _ _ ⟨⟩

theorem ite {p : Prop} [Decidable p] {x x' : Act α} {y y' : Act β}
    (hx : p → Carries pre lost post x y) (hx' : ¬p → Carries pre lost post x' y') :
    Carries pre lost post (if p then x else x') (if p then y else y') := by
  split
  · exact hx ‹_›
  · exact hx' ‹_›

/-- Wherever the construct stands, it may be in front of the end. -/
theorem leading {site : Frame.Site} {x : Act α} {y : Act β}
    (h : Carries (site.Meets more) lost post x y) : Carries (Input.Leads more) lost post x y :=
  fun scene scene' parallel leads => h scene scene' parallel (.inl leads)

theorem blind_bind {x : Act γ} {f : γ → Act α} {g : γ → Act β} (hx : x.Blind)
    (hf : ∀ c, Carries pre lost post (f c) (g c)) : Carries pre lost post (x >>= f) (x >>= g) := by
  intro scene scene' parallel meets a last h
  obtain ⟨answer, mid⟩ := hx.same scene scene' parallel
  have keeps := hx.keeps scene
  have keeps' := hx.keeps scene'
  rw [on_bind] at h ⊢
  rcases first : x.on scene with ⟨r, between⟩
  rcases first' : x.on scene' with ⟨r', between'⟩
  rw [first] at h keeps answer mid
  rw [first'] at keeps' answer mid
  obtain rfl : r' = r := answer
  cases r' with
  | error fault => cases h
  | ok c => exact hf c between between' mid (by rwa [keeps, keeps']) a last h

theorem session_bind {f : Session → Act α} {g : Session → Act β}
    (h : ∀ s t, s.Parallel t → pre s.input t.input → Carries pre lost post (f s) (g t)) :
    Carries pre lost post (session >>= f) (session >>= g) :=
  fun scene scene' parallel meets => h _ _ parallel meets scene scene' parallel meets

/-- Both go on reading somewhere else. -/
theorem setInput_bind {pre' : Input → Input → Prop} {i j : Input} {f : Unit → Act α}
    {g : Unit → Act β} (meets : pre' i j) (h : Carries pre' lost post (f ()) (g ())) :
    Carries pre lost post (update (fun s => { s with input := i }) >>= f)
      (update (fun s => { s with input := j }) >>= g) := by
  rintro scene ⟨_, journal⟩ ⟨idle, input, token, rfl⟩ _
  exact h _ _ ⟨idle, j, token, rfl⟩ meets

/-! Reading -/

section Reading

variable {phase : Phase} {f : Token → Act α} {g : Token → Act β}

theorem on_next {scene : Scene} {t : Token} {j : Input}
    (read : scene.session.input.next phase = (t, j)) (proper : t.kind ≠ .error) :
    (nextToken phase >>= g).on scene = (g t).on (took scene phase t j) := by
  rw [on_bind, on_nextToken read, if_neg proper]

/-- The end of the shorter script is something to get lost at. -/
theorem next_bind (reads : ∀ i j, pre i j → i.Leads more j ∨ i.Spent)
    (same : ∀ t, t.kind ≠ .eof → Carries (Input.Leads more) lost post (f t) (g t))
    (ends : ∀ scene : Scene, scene.session.input.Ended → ∀ a last,
      (f .eof).on scene = (.ok a, last) → lost a last.session.input) :
    Carries pre lost post (nextToken phase >>= f) (nextToken phase >>= g) := by
  intro scene scene' parallel meets a last h
  rw [on_bind] at h
  rcases taken : (nextToken phase).on scene with ⟨fault | t, mid⟩
  · rw [taken] at h
    cases h
  · rw [taken] at h
    obtain ⟨i, read, proper, rfl⟩ := nextToken_ok taken
    rcases reads _ _ meets with leads | spent
    · rcases leads.next read proper with ⟨onward, j, read', leads'⟩ | ⟨rfl, ended, -⟩
      · rw [on_next read' proper]
        exact same t onward _ _ (parallel.took ..) leads' a last h
      · exact .inl (ends _ ended a last h)
    · obtain ⟨rfl, ended⟩ := spent.next read
      exact .inl (ends _ ended a last h)

/-- Where a newline counts, one reads it for the end that the other finds. -/
theorem line_bind (newlines : phase.readsNewlines = true)
    (same : ∀ t, t.kind ≠ .eof → Carries (Input.Leads more) lost post (f t) (g t))
    (ends : Carries (Input.Broken more) lost post (f .eof) (g .newline)) :
    Carries (Frame.Site.line.Meets more) lost post (nextToken phase >>= f)
      (nextToken phase >>= g) := by
  intro scene scene' parallel meets a last h
  rw [on_bind] at h
  rcases taken : (nextToken phase).on scene with ⟨fault | t, mid⟩
  · rw [taken] at h
    cases h
  · rw [taken] at h
    obtain ⟨i, read, proper, rfl⟩ := nextToken_ok taken
    rcases Frame.Site.line_next meets read proper newlines with
      ⟨onward, j, read', leads⟩ | ⟨rfl, j, read', broken⟩
    · rw [on_next read' proper]
      exact same t onward _ _ (parallel.took ..) leads a last h
    · rw [on_next read' (by decide)]
      exact ends _ _ (parallel.took ..) broken a last h

end Reading

theorem unread_bind {t : Token} {f : Unit → Act α} {g : Unit → Act β} (proper : t.kind ≠ .eof)
    (h : Carries (Input.Leads more) lost post (f ()) (g ())) :
    Carries (Input.Leads more) lost post (unread t >>= f) (unread t >>= g) := by
  rintro scene ⟨_, journal⟩ ⟨idle, input, token, rfl⟩ leads
  exact h _ _ ⟨idle, input.unread t, token, rfl⟩ (leads.unread proper)

theorem expect_bind {phase : Phase} {kind : Token.Kind} {f : Unit → Act α} {g : Unit → Act β}
    (reads : ∀ i j, pre i j → i.Leads more j ∨ i.Spent) (proper : kind ≠ .eof)
    (h : Carries (Input.Leads more) lost post (f ()) (g ())) :
    Carries pre lost post (expect phase kind >>= f) (expect phase kind >>= g) := by
  rw [expect_bind_eq, expect_bind_eq]
  refine next_bind reads (fun t _ => ite (fun _ => fail _ _) fun _ => h) ?_
  intro scene _ a last failed
  rw [if_pos (by simpa [Token.eof] using proper.symm)] at failed
  cases failed

end Carries

end Act

namespace Frame

open Act

variable {more : List UInt8} {flags : Flags}

theorem Site.Meets.reads {site : Site} {i j : Input} (h : site.Meets more i j) :
    i.Leads more j ∨ i.Spent := by
  refine h.imp_right fun h => ?_
  cases site with
  | inside => exact h.elim
  | line => exact h.1
  | between => exact h.1

abbrev Tracks (more : List UInt8) (f : Frame) (pre : Input → Input → Prop) (x y : Act Move) :
    Prop :=
  Carries pre f.Lost (Move.Carried more f) x y

/-- Behind an operand the end and a newline are put back alike. -/
theorem lookahead_tracks {f : Frame} (nl : Bool) (stands : f.site = .ofNewlines nl)
    {k : Token → Act Move} {m : Act Move}
    (same : ∀ t, t.kind ≠ .eof → f.Tracks more (Input.Leads more) (k t) (k t))
    (falls : ∀ t, t.kind = .eof ∨ t.kind = .newline → k t = unread t >>= fun _ => m)
    (keeps : m.Keeps Session.input)
    (inside : nl = false → ∀ scene a last, m.on scene = (.ok a, last) → a.Inside)
    (rest : nl = true → f.Tracks more (Site.line.Meets more) m m) :
    f.Tracks more (f.site.Meets more) (nextToken (lookahead nl) >>= k)
      (nextToken (lookahead nl) >>= k) := by
  rw [stands]
  cases nl with
  | true =>
    refine .line_bind rfl same ?_
    rw [falls .eof (.inl rfl), falls .newline (.inr rfl)]
    rintro scene ⟨_, journal⟩ ⟨idle, input, token, rfl⟩ broken
    refine rest rfl _ _ ⟨idle, input.unread .newline, token, rfl⟩ ?_
    exact .inr ⟨broken.ended.unread, rfl, broken.tokens⟩
  | false =>
    refine .next_bind (fun _ _ => Site.Meets.reads) same ?_
    intro scene ended a last h
    rw [falls .eof (.inl rfl)] at h
    have kept := keeps { scene with session := scene.session.unread .eof }
    have after : m.on { scene with session := scene.session.unread .eof } = (.ok a, last) := h
    rw [after] at kept
    have spent : last.session.input.Spent := by
      rw [kept]
      exact ended.unread
    exact .inside stands spent.ahead (inside rfl _ a last after)

def handOver (flags : Flags) (value : String) (phase : Phase) : Act Move := do
  if flags.executes then setResult value
  return .done phase

theorem finishTier_eq (t : Token) (value : String) (phase : Phase) :
    finishTier flags t value phase = unread t >>= fun _ => handOver flags value phase := rfl

theorem handOver_keeps (value : String) (phase : Phase) :
    (handOver flags value phase).Keeps Session.input :=
  .ite (.bind (.update fun _ => rfl) fun _ => .pure _) (.pure _)

theorem handOver_inside {value : String} {phase : Phase} {scene last : Scene} {move : Move}
    (h : (handOver flags value phase).on scene = (.ok move, last)) : move.Inside := by
  unfold handOver at h
  split at h <;> cases h <;> trivial

theorem handOver_tracks {f : Frame} {pre : Input → Input → Prop}
    (le : ∀ i j, pre i j → f.exit.Meets more i j) (value : String) (phase : Phase) :
    f.Tracks more pre (handOver flags value phase) (handOver flags value phase) := by
  have done : f.Tracks more pre (pure (.done phase)) (pure (.done phase)) :=
    .pure fun i j meets => .inr (.done (le i j meets))
  exact .ite (fun _ => .blind_bind (.setResult value) fun _ => done) fun _ => done

theorem finishTier_tracks {f : Frame} {t : Token} (proper : t.kind ≠ .eof) (value : String)
    (phase : Phase) :
    f.Tracks more (Input.Leads more) (finishTier flags t value phase)
      (finishTier flags t value phase) := by
  rw [finishTier_eq]
  exact .unread_bind proper (handOver_tracks (fun _ _ => .inl) value phase)

/-- Behind a token that both have read, a frame waits for another one. -/
theorem push_tracks {f self inner : Frame} (plain : self.isLoop = false)
    (fresh : inner.Fresh) (silent : self.Silent) (silent' : inner.Silent)
    (leaves : self.exit = f.exit) (awaits : self.Awaits inner) :
    f.Tracks more (Input.Leads more) (pure (.push self inner)) (pure (.push self inner)) :=
  .pure fun _ _ leads => .inr (.wait plain fresh silent silent' leaves awaits (.inl leads))

/-! ### Expressions -/

section Expressions

variable {f : Frame} {nl : Bool} (stands : f.site = .ofNewlines nl) (leaves : f.exit = f.site)

theorem site_ofNewlines_ne (nl : Bool) : Site.ofNewlines nl ≠ .between := by
  cases nl <;> simp [Site.ofNewlines]

theorem awaits_operand (nl : Bool) {self inner : Frame} (h : self.site = .ofNewlines nl)
    (h' : inner.exit = .ofNewlines nl) : self.Awaits inner := by
  unfold Awaits
  cases nl with
  | true => simp [h, h', Site.ofNewlines]
  | false => simp [h, h', Site.ofNewlines]

include stands leaves

/-- An operator behind an operand goes on; anything else ends the tier. -/
theorem tier_tracks (flags : Flags) (value : String) (phase : Phase) {k : Token → Act Move}
    (same : ∀ t, t.kind ≠ .eof → f.Tracks more (Input.Leads more) (k t) (k t))
    (falls : ∀ t, t.kind = .eof ∨ t.kind = .newline → k t = finishTier flags t value phase) :
    f.Tracks more (f.site.Meets more) (nextToken (lookahead nl) >>= k)
      (nextToken (lookahead nl) >>= k) := by
  refine lookahead_tracks nl stands same falls (handOver_keeps value phase)
    (fun _ _ _ _ => handOver_inside) ?_
  rintro rfl
  refine handOver_tracks (fun i j meets => ?_) value phase
  rwa [leaves, stands]

theorem closeCond_tracks (value : String) :
    f.Tracks more (f.site.Meets more) (closeCond flags nl value) (closeCond flags nl value) := by
  have join : ∀ op, f.Tracks more (Input.Leads more) (pure (joinCond flags nl value op))
      (pure (joinCond flags nl value op)) := fun op =>
    push_tracks rfl (.inl rfl) trivial trivial (leaves.trans stands).symm
      (awaits_operand nl rfl rfl)
  refine tier_tracks stands leaves flags value .condDone (fun t proper => ?_) ?_
  · split
    · exact join .and
    · exact join .or
    · exact finishTier_tracks proper value .condDone
  · rintro t (kind | kind) <;> simp only [kind]

theorem closeRel_tracks (value : String) :
    f.Tracks more (f.site.Meets more) (closeRel flags nl value) (closeRel flags nl value) := by
  refine tier_tracks stands leaves flags value .relExpDone (fun t proper => ?_) ?_
  · split
    · refine .ite (fun _ => ?_) fun _ => finishTier_tracks proper value .relExpDone
      exact push_tracks rfl (.inl rfl) trivial trivial (leaves.trans stands).symm
        (awaits_operand nl rfl rfl)
    · exact finishTier_tracks proper value .relExpDone
  · rintro t (kind | kind) <;> simp only [kind]

theorem closeTerm_tracks (terms : Terms) (term : String) :
    f.Tracks more (f.site.Meets more) (closeTerm flags nl terms term)
      (closeTerm flags nl terms term) := by
  rw [closeTerm_eq]
  refine .blind_bind (.ite (.ofExcept _) (.pure "")) fun value => ?_
  refine tier_tracks stands leaves flags value .exprDone (fun t proper => ?_) ?_
  · split
    · refine .ite (fun _ => ?_) fun _ => finishTier_tracks proper value .exprDone
      refine .pure fun i j leads => .inr (.stay rfl nofun trivial ?_ (.inl leads))
      exact (leaves.trans stands).symm
    · exact finishTier_tracks proper value .exprDone
  · rintro t (kind | kind) <;> simp only [kind]

end Expressions

theorem stepCond_tracks (nl : Bool) (stage : CondStage) :
    Tracks more ⟨flags, .cond nl stage⟩ (Site.Meets more (site ⟨flags, .cond nl stage⟩))
      (stepCond flags nl stage) (stepCond flags nl stage) := by
  cases stage with
  | start seed =>
    refine .pure fun i j meets => .inr (.wait rfl (.inl rfl) trivial trivial rfl ?_ meets)
    exact awaits_operand nl rfl rfl
  | first =>
    rw [stepCond_first]
    exact .blind_bind (.ite .takeResult (.pure "")) fun value => closeCond_tracks rfl rfl value
  | joining left op settled =>
    have joined : (condValue (.joining left op settled)).Blind :=
      .ite (.pure _) (.session_bind (fun s => .ofExcept _) fun _ _ _ => rfl)
    rw [stepCond_joining]
    exact .blind_bind (.ite joined (.pure "")) fun value => closeCond_tracks rfl rfl value

theorem stepRel_tracks (nl : Bool) (stage : RelStage) :
    Tracks more ⟨flags, .rel nl stage⟩ (Site.Meets more (site ⟨flags, .rel nl stage⟩))
      (stepRel flags nl stage) (stepRel flags nl stage) := by
  cases stage with
  | start seed =>
    refine .pure fun i j meets => .inr (.wait rfl (.inl rfl) trivial trivial rfl ?_ meets)
    exact awaits_operand nl rfl rfl
  | first =>
    rw [stepRel_first]
    exact .blind_bind (.ite .takeResult (.pure "")) fun value => closeRel_tracks rfl rfl value
  | joining left op =>
    have joined : (relValue (.joining left op)).Blind :=
      .session_bind (fun s => .bind (.ofExcept _) fun _ => .pure _) fun _ _ _ => rfl
    rw [stepRel_joining]
    exact .blind_bind (.ite joined (.pure "")) fun value => closeRel_tracks rfl rfl value

theorem Site.Meets.line {nl : Bool} {i j : Input} (h : (Site.ofNewlines nl).Meets more i j) :
    Site.line.Meets more i j := by
  cases nl with
  | true => exact h
  | false => exact h.imp_right False.elim

/-- What a frame may find that is put in brackets: one that has seen the end is lost there. -/
theorem push_inside {f self inner : Frame} (plain : self.isLoop = false)
    (fresh : inner.Fresh) (silent : self.Silent) (silent' : inner.Silent)
    (leaves : self.exit = f.exit) (due : inner.due = 1) (enclosed : inner.exit = .inside)
    (awaits : self.Awaits inner) :
    f.Tracks more (f.site.Meets more) (pure (.push self inner)) (pure (.push self inner)) := by
  refine .pure fun i j meets => ?_
  rcases meets.reads with leads | spent
  · exact .inr (.wait plain fresh silent silent' leaves awaits (.inl leads))
  · exact .inl (.owing spent.ahead due (by simp [enclosed]))

/-- A call that is executed leads nowhere. -/
theorem openTerm_tracks (nl : Bool) (terms terms' : Terms) (t : Token) :
    Tracks more ⟨flags, .expr nl terms'⟩ (Site.Meets more (.ofNewlines nl))
      (openTerm flags nl terms t) (openTerm flags nl terms t) := by
  have unary : ∀ u : Unary, Tracks more ⟨flags, .expr nl terms'⟩ (Site.Meets more (.ofNewlines nl))
      (pure (.stay
        ⟨flags, .expr nl { terms with stage := .term none, unary := u :: terms.unary }⟩))
      (pure (.stay
        ⟨flags, .expr nl { terms with stage := .term none, unary := u :: terms.unary }⟩)) :=
    fun u => .pure fun i j meets => .inr (.stay rfl nofun trivial rfl meets)
  unfold openTerm
  split
  · exact closeTerm_tracks (f := ⟨flags, .expr nl terms'⟩) rfl rfl terms t.text
  · refine .ite (fun _ => .blind_bind (.readVariable t.text) fun value => ?_) fun _ => ?_
    · exact closeTerm_tracks (f := ⟨flags, .expr nl terms'⟩) rfl rfl terms value
    · exact closeTerm_tracks (f := ⟨flags, .expr nl terms'⟩) rfl rfl terms ""
  · refine .pure fun i j meets => ?_
    cases executes : flags.executes with
    | true => exact .inl (.calling executes)
    | false =>
      refine .inr (.wait rfl (.inl rfl) trivial executes rfl ?_ meets.line)
      exact site_ofNewlines_ne nl
  · exact push_inside (f := ⟨flags, .expr nl terms'⟩) rfl (.inl rfl) trivial trivial rfl rfl
      rfl (.inr (.inl rfl))
  · exact unary .minus
  · exact unary .not
  · exact .fail _ _

theorem stepExpr_tracks (nl : Bool) (terms : Terms) :
    Tracks more ⟨flags, .expr nl terms⟩ (Site.Meets more (site ⟨flags, .expr nl terms⟩))
      (stepExpr flags nl terms) (stepExpr flags nl terms) := by
  obtain ⟨stage, left, unary⟩ := terms
  have value : (innerValue flags).Blind := .ite .takeResult (.pure "")
  cases stage with
  | term seed =>
    cases seed with
    | some t => exact openTerm_tracks nl _ _ t
    | none =>
      refine .next_bind (fun _ _ => Site.Meets.reads) (fun t _ => ?_) ?_
      · exact (openTerm_tracks nl _ _ t).leading
      · rintro scene _ _ _ ⟨⟩
  | afterParen =>
    refine .expect_bind (fun _ _ => Site.Meets.reads) (by simp) ?_
    exact .blind_bind value fun v => Carries.leading
      (closeTerm_tracks (f := ⟨flags, .expr nl ⟨.afterParen, left, unary⟩⟩) rfl rfl _ v)
  | afterCall =>
    exact .blind_bind value fun v =>
      closeTerm_tracks (f := ⟨flags, .expr nl ⟨.afterCall, left, unary⟩⟩) rfl rfl _ v

/-- A call that is not executed is read over. -/
theorem stepCall_tracks (name : String) {stage : CallStage}
    (silent : Silent ⟨flags, .call name stage⟩) :
    Tracks more ⟨flags, .call name stage⟩ (Site.line.Meets more) (stepCall flags name stage)
      (stepCall flags name stage) := by
  cases stage with
  | opening =>
    have off : flags.executes = false := silent
    simp only [stepCall, off, Bool.false_eq_true, if_false]
    refine .expect_bind (fun _ _ => Site.Meets.reads) (by simp) ?_
    exact push_tracks rfl (.inl rfl) off off rfl (by simp [Awaits, exit, site])
  | invoking target =>
    cases target with
    | none => exact .pure fun i j meets => .inr (.done meets)
    | some target => exact silent.elim

theorem stepArguments_tracks (off : flags.executes = false) (inner : Option Phase) :
    Tracks more ⟨flags, .arguments⟩ (Site.line.Meets more) (stepArguments flags inner)
      (stepArguments flags inner) := by
  have argument : Tracks more ⟨flags, .arguments⟩ (Input.Leads more)
      (pure (.push ⟨flags, .arguments⟩ (newCond flags false none)))
      (pure (.push ⟨flags, .arguments⟩ (newCond flags false none))) :=
    push_tracks rfl (.inl rfl) off trivial rfl (.inr (.inl rfl))
  have done : Tracks more ⟨flags, .arguments⟩ (Input.Leads more) (pure (.done .argListDone))
      (pure (.done .argListDone)) := .pure fun i j leads => .inr (.done (.inl leads))
  cases inner with
  | none =>
    refine .next_bind (fun _ _ => Site.Meets.reads) (fun t proper => ?_) ?_
    · exact .ite (fun _ => done) fun _ => .unread_bind proper argument
    · rintro scene ended _ _ ⟨⟩
      exact .owing ended.unread.ahead rfl (site_ofNewlines_ne false)
  | some phase =>
    simp only [stepArguments, off, Bool.false_eq_true, if_false]
    refine .next_bind (fun _ _ => Site.Meets.reads) (fun t proper => ?_) ?_
    · split
      · exact argument
      · exact done
      · exact .fail _ _
    · rintro scene ended _ _ ⟨⟩

/-! ### Simple statements, declarations and `return` -/

theorem bumpVariable_blind (op : Operator) (name : String) : (bumpVariable op name).Blind := by
  refine .bind (.readVariable name) fun value => .bind (.ofExcept _) fun value => ?_
  exact .update (fun _ => rfl) (fun _ _ _ => rfl) fun _ => rfl

theorem stepSimple_tracks (nl : Bool) (stage : SimpleStage) :
    Tracks more ⟨flags, .simple nl stage⟩ (Site.Meets more (.ofNewlines nl))
      (stepSimple flags nl stage) (stepSimple flags nl stage) := by
  have done : ∀ stage, Tracks more ⟨flags, .simple nl stage⟩ (Site.Meets more (.ofNewlines nl))
      (pure (.done .exprDone)) (pure (.done .exprDone)) :=
    fun stage => .pure fun i j meets => .inr (.done meets)
  cases stage with
  | start =>
    have value : ∀ stage seed, Tracks more ⟨flags, .simple nl .start⟩ (Input.Leads more)
        (pure (.push ⟨flags, .simple nl stage⟩ (newCond flags nl seed)))
        (pure (.push ⟨flags, .simple nl stage⟩ (newCond flags nl seed))) := fun stage seed =>
      push_tracks rfl (.inl rfl) trivial trivial rfl (awaits_operand nl rfl rfl)
    refine .next_bind (fun _ _ => Site.Meets.reads) (fun t proper => ?_) ?_
    · refine .ite (fun _ => .unread_bind proper (value .valued none)) fun _ => ?_
      refine (lookahead_tracks (f := ⟨flags, .simple nl .start⟩) nl rfl
        (m := pure (.push ⟨flags, .simple nl .valued⟩ (newCond flags nl (some t))))
        (fun behind proper => ?_) ?_ (.pure _) ?_ ?_).leading
      · split
        · exact value (.assigning t.text) none
        · exact .ite (fun _ => .blind_bind (bumpVariable_blind _ _) fun _ => (done _).leading)
            fun _ => (done _).leading
        · exact .unread_bind proper (value .valued (some t))
      · rintro behind (kind | kind) <;> simp only [kind]
      · rintro rfl scene _ _ ⟨⟩
        exact ⟨rfl, rfl⟩
      · rintro rfl
        refine .pure fun i j meets => ?_
        exact .inr (.wait rfl (.inl rfl) trivial trivial rfl (awaits_operand true rfl rfl)
          meets)
    · intro scene ended a last h
      rw [if_pos (by simp [Token.eof])] at h
      cases h
      exact .owing ended.unread.ahead rfl (site_ofNewlines_ne nl)
  | assigning name =>
    refine .ite (fun _ => .blind_bind ?_ fun _ => done _) fun _ => done _
    exact .update (fun _ => rfl) (fun _ _ _ => rfl) fun _ => rfl
  | valued => exact done _

theorem stepDeclarations_tracks (nl : Bool) (inner : Option Phase) :
    Tracks more ⟨flags, .declarations nl⟩ (Site.Meets more (.ofNewlines nl))
      (stepDeclarations flags nl inner) (stepDeclarations flags nl inner) := by
  have declare : Tracks more ⟨flags, .declarations nl⟩ (Site.Meets more (.ofNewlines nl)) (do
      let t ← nextToken .decList
      if t.kind ≠ .identifier then fail (.expectedName t)
      return Move.push ⟨flags, .declarations nl⟩ ⟨flags, .declaration nl t.text⟩) (do
      let t ← nextToken .decList
      if t.kind ≠ .identifier then fail (.expectedName t)
      return Move.push ⟨flags, .declarations nl⟩ ⟨flags, .declaration nl t.text⟩) := by
    refine .next_bind (fun _ _ => Site.Meets.reads) (fun t proper => ?_) ?_
    · refine .ite (fun _ => ?_) fun _ => ?_
      · rintro scene scene' _ _ _ _ ⟨⟩
      · exact push_tracks rfl (.inl rfl) trivial trivial rfl (awaits_operand nl rfl rfl)
    · rintro scene ended _ _ ⟨⟩
  cases inner with
  | none => exact declare
  | some phase =>
    refine lookahead_tracks (f := ⟨flags, .declarations nl⟩) nl rfl (m := pure (.done .decListDone))
      (fun t proper => ?_) ?_ (.pure _) ?_ ?_
    · refine .ite (fun _ => declare.leading) fun _ => ?_
      exact .unread_bind proper (.pure fun i j leads => .inr (.done (.inl leads)))
    · rintro t (kind | kind) <;> simp [kind]
    · rintro rfl scene _ _ ⟨⟩
      trivial
    · rintro rfl
      exact .pure fun i j meets => .inr (.done meets)

theorem stepDeclaration_tracks (nl : Bool) (name : String) (inner : Option Phase) :
    Tracks more ⟨flags, .declaration nl name⟩ (Site.Meets more (.ofNewlines nl))
      (stepDeclaration flags nl name inner) (stepDeclaration flags nl name inner) := by
  let bound := fun value : String => (do
    if flags.executes then update (·.setLocal name value)
    return Move.done .decDone : Act Move)
  have binds : ∀ value, Tracks more ⟨flags, .declaration nl name⟩
      (Site.Meets more (.ofNewlines nl)) (bound value) (bound value) := by
    intro value
    have done : Tracks more ⟨flags, .declaration nl name⟩ (Site.Meets more (.ofNewlines nl))
        (pure (.done .decDone)) (pure (.done .decDone)) :=
      .pure fun i j meets => .inr (.done meets)
    refine .ite (fun _ => .blind_bind ?_ fun _ => done) fun _ => done
    exact .update (fun _ => rfl) (fun _ _ _ => rfl) fun _ => rfl
  cases inner with
  | none =>
    refine lookahead_tracks (f := ⟨flags, .declaration nl name⟩) nl rfl (m := bound "")
      (fun t proper => ?_) ?_ ?_ ?_ ?_
    · refine .ite (fun _ => ?_) fun _ => .unread_bind proper ?_
      · exact push_tracks rfl (.inl rfl) trivial trivial rfl (awaits_operand nl rfl rfl)
      · exact (binds "").leading
    · rintro t (kind | kind) <;> simp [kind, bound]
    · exact .ite (.bind (.update fun _ => rfl) fun _ => .pure _) (.pure _)
    · intro _ scene move last h
      dsimp only [bound] at h
      split at h <;> cases h <;> trivial
    · rintro rfl
      exact binds ""
  | some phase =>
    refine .session_bind fun s t parallel meets => ?_
    obtain ⟨-, input, token, rfl⟩ := parallel
    exact binds s.result

theorem stepReturning_tracks (inner : Option Phase) :
    Tracks more ⟨flags, .returning⟩ (Site.line.Meets more) (stepReturning flags inner)
      (stepReturning flags inner) := by
  have finish : Tracks more ⟨flags, .returning⟩ (Site.line.Meets more)
      (pure (.done (if flags.executes then .ret else .stmtDone)))
      (pure (.done (if flags.executes then .ret else .stmtDone))) :=
    .pure fun i j meets => .inr (.done meets)
  have empty : Tracks more ⟨flags, .returning⟩ (Site.line.Meets more) (do
      if flags.executes then setResult ""
      return .done (if flags.executes then .ret else .stmtDone)) (do
      if flags.executes then setResult ""
      return .done (if flags.executes then .ret else .stmtDone)) :=
    .ite (fun _ => .blind_bind (.setResult "") fun _ => finish) fun _ => finish
  cases inner with
  | some phase => exact finish
  | none =>
    refine lookahead_tracks (f := ⟨flags, .returning⟩) true rfl
      (fun t proper => .unread_bind proper ?_) ?_ ?_ nofun fun _ => empty
    · split
      iterate 4 exact empty.leading
      exact push_tracks rfl (.inl rfl) trivial trivial rfl
        (by simp [Awaits, exit, site, Site.ofNewlines, newCond])
    · rintro t (kind | kind) <;> simp only [kind]
    · exact .ite (.bind (.update fun _ => rfl) fun _ => .pure _) (.pure _)

/-! ### Statements, blocks and branches -/

theorem Site.Meets.between {i j : Input} (h : Site.line.Meets more i j) :
    Site.between.Meets more i j := by
  rcases h with leads | ⟨spent, atBreak⟩
  · exact .inl leads
  · exact .inr ⟨spent, atBreak.beyond⟩

/-- The statement that a token opens. -/
theorem openStatement_tracks {t : Token} (proper : t.kind ≠ .eof) :
    Tracks more ⟨flags, .statement .start⟩ (Input.Leads more) (openStatement flags t)
      (openStatement flags t) := by
  have done : ∀ phase, Tracks more ⟨flags, .statement .start⟩ (Input.Leads more)
      (pure (.done phase)) (pure (.done phase)) :=
    fun phase => .pure fun i j leads => .inr (.done (.inl leads))
  have simple : Tracks more ⟨flags, .statement .start⟩ (Input.Leads more) (do
      unread t
      return .push ⟨flags, .statement (.forward true)⟩ ⟨flags, .simple true .start⟩) (do
      unread t
      return .push ⟨flags, .statement (.forward true)⟩ ⟨flags, .simple true .start⟩) :=
    .unread_bind proper
      (push_tracks rfl (.inl rfl) trivial trivial rfl (awaits_operand true rfl rfl))
  have compound : ∀ inner : Construct, (exit ⟨flags, inner⟩) = .between →
      inner ≠ .statement .start → (⟨flags, .statement (.forward false)⟩ : Frame).Awaits
        ⟨flags, inner⟩ := by
    intro inner leaves begun
    unfold Awaits
    rw [leaves]
    exact ⟨rfl, fun may => absurd may begun⟩
  unfold openStatement
  split
  · exact .pure fun i j leads => .inr (.stay rfl (fun _ => rfl) trivial rfl (.inl leads))
  · exact done .stmtDone
  · exact absurd ‹_› proper
  · exact done .stmtBlockDone
  · exact push_tracks rfl (.inl rfl) trivial trivial rfl (compound _ rfl (by simp))
  · exact push_tracks rfl (.inl rfl) trivial trivial rfl (compound _ rfl (by simp))
  · exact push_tracks rfl (.inr rfl) trivial trivial rfl (compound _ rfl (by simp))
  · exact push_tracks rfl (.inl rfl) trivial trivial rfl (awaits_operand true rfl rfl)
  · exact push_tracks rfl (.inl rfl) trivial trivial rfl (awaits_operand true rfl rfl)
  iterate 6 exact simple
  exact .fail _ _

/-- A newline ends a simple statement where the end of the script does. -/
theorem terminate_tracks :
    Tracks more ⟨flags, .statement (.forward true)⟩ (Site.line.Meets more) terminate
      terminate := by
  have done : Tracks more ⟨flags, .statement (.forward true)⟩ (Input.Leads more)
      (pure (.done .stmtDone)) (pure (.done .stmtDone)) :=
    .pure fun i j leads => .inr (.done (.inl leads))
  refine .line_bind rfl (fun t proper => ?_) ?_
  · split
    iterate 2 exact done
    iterate 3 exact .unread_bind proper done
    exact .fail _ _
  · rintro scene ⟨_, journal⟩ ⟨idle, input, token, rfl⟩ broken _ _ ⟨⟩
    refine .inr ⟨_, _, rfl, ⟨idle, input, token, rfl⟩, .done (.inr ⟨broken.ended.unread, ?_⟩)⟩
    exact Input.beyond_of_tokens broken.fresh (by rw [broken.tokens])

theorem stepStatement_tracks (stage : StatementStage) (inner : Option Phase) :
    Tracks more ⟨flags, .statement stage⟩ (Site.Meets more (site ⟨flags, .statement stage⟩))
      (stepStatement flags stage inner) (stepStatement flags stage inner) := by
  cases stage with
  | start =>
    refine .next_bind (fun _ _ => Site.Meets.reads) (fun t proper => openStatement_tracks proper) ?_
    rintro scene _ _ _ ⟨⟩
    exact .ended rfl
  | forward terminated =>
    cases terminated with
    | true =>
      refine .ite (fun _ => ?_) fun _ => terminate_tracks
      exact .pure fun i j meets => .inr (.done (Site.Meets.between meets))
    | false =>
      exact .ite (fun _ => .pure fun i j meets => .inr (.done meets)) fun _ =>
        .pure fun i j meets => .inr (.done meets)

theorem stepBlock_tracks (scope : Option BlockId) (inner : Option Phase) :
    Tracks more ⟨flags, .block scope⟩ (Site.between.Meets more) (stepBlock flags scope inner)
      (stepBlock flags scope inner) := by
  have again : ∀ scope', Tracks more ⟨flags, .block scope⟩ (Site.between.Meets more)
      (pure (.push ⟨flags, .block scope'⟩ (newStatement flags)))
      (pure (.push ⟨flags, .block scope'⟩ (newStatement flags))) := fun scope' =>
    .pure fun i j meets => .inr (.wait rfl (.inl rfl) trivial trivial rfl
      ⟨rfl, fun _ s => ⟨_, _, rfl⟩⟩ meets)
  have leave : ∀ phase, Tracks more ⟨flags, .block scope⟩ (Site.between.Meets more)
      (leaveBlock scope phase) (leaveBlock scope phase) := by
    intro phase
    have done : Tracks more ⟨flags, .block scope⟩ (Site.between.Meets more)
        (pure (.done phase)) (pure (.done phase)) := .pure fun i j meets => .inr (.done meets)
    cases scope with
    | none => exact done
    | some id => exact .blind_bind (.closeBlock id) fun _ => done
  cases inner with
  | none =>
    refine .ite (fun _ => ?_) fun _ => again none
    exact .blind_bind .openBlock fun id => .blind_bind (.emit _) fun _ => again (some id)
  | some phase =>
    cases phase with
    | stmtDone => exact again scope
    | stmtBlockDone => exact leave .stmtBlockDone
    | ret => exact leave .ret
    | _ => exact .fail _ _

theorem bodyReturns_blind (clause : Fault.Clause) (inner : Option Phase) :
    (bodyReturns clause inner).Blind := by
  unfold bodyReturns
  split
  · exact .pure true
  iterate 3 exact .fail _
  · exact .pure false

theorem stepBranch_tracks (stage : BranchStage) (inner : Option Phase) :
    Tracks more ⟨flags, .branch stage⟩ (Site.between.Meets more) (stepBranch flags stage inner)
      (stepBranch flags stage inner) := by
  have body : ∀ self taken, (⟨flags, .branch self⟩ : Frame).WantsMore →
      Tracks more ⟨flags, .branch stage⟩ (Input.Leads more)
        (pure (.push ⟨flags, .branch self⟩ (newStatement (flags.executeIf taken))))
        (pure (.push ⟨flags, .branch self⟩ (newStatement (flags.executeIf taken)))) :=
    fun self taken wants => push_tracks rfl (.inl rfl) trivial trivial rfl ⟨rfl, fun _ => wants⟩
  have done : ∀ phase, Tracks more ⟨flags, .branch stage⟩ (Site.between.Meets more)
      (pure (.done phase)) (pure (.done phase)) :=
    fun phase => .pure fun i j meets => .inr (.done meets)
  cases stage with
  | opening =>
    refine .expect_bind (fun _ _ => Site.Meets.reads) (by simp) ?_
    exact push_tracks rfl (.inl rfl) trivial trivial rfl (.inr (.inl rfl))
  | afterCondition =>
    refine .session_bind fun s t parallel _ => ?_
    obtain ⟨-, input, token, rfl⟩ := parallel
    refine .expect_bind (fun _ _ => Site.Meets.reads) (by simp) ?_
    exact body _ _ fun s => ⟨_, _, rfl⟩
  | afterThen taken =>
    refine .blind_bind (bodyReturns_blind _ inner) fun returns => ?_
    refine .ite (fun _ => done .ret) fun _ => ?_
    exact .pure fun i j meets => .inr (.stay rfl nofun trivial rfl meets)
  | seekElse taken =>
    refine .next_bind (fun _ _ => Site.Meets.reads) (fun t proper => ?_) ?_
    · split
      · exact .pure fun i j leads => .inr (.stay rfl nofun trivial rfl (.inl leads))
      · exact body _ _ fun s => ⟨_, _, rfl⟩
      · exact .unread_bind proper (done .stmtDone).leading
    · rintro scene ended _ _ ⟨⟩
      exact .seeking rfl ended.unread
  | afterElse =>
    refine .blind_bind (bodyReturns_blind _ inner) fun returns => ?_
    exact .ite (fun _ => done .ret) fun _ => done .stmtDone

/-! ### Loops -/

section Loop

variable {l m : Loop} (like : l.Like (Site.between.Meets more) m) (l₀ : Loop)

/-- A clause of the header is in brackets, where the end of the script may not come. -/
theorem clause_tracks {inner : Frame} (like : l.Like (Site.between.Meets more) m)
    (plain : inner.isLoop = false) (silent : inner.Silent) (due : inner.due = 1)
    (enters : inner.site = .inside) (leaves : inner.exit = .inside)
    (awaits : (⟨flags, .loop l⟩ : Frame).Awaits inner) :
    Tracks more ⟨flags, .loop l₀⟩ (Site.between.Meets more)
      (pure (.push ⟨flags, .loop l⟩ inner)) (pure (.push ⟨flags, .loop m⟩ inner)) := by
  refine .pure fun i j meets => ?_
  rcases meets.reads with leads | spent
  · exact .inr (.push (.loop like) (fun _ => rfl) (.inl plain) trivial silent rfl awaits
      (enters ▸ .inl leads))
  · exact .inl (.owing spent.ahead due (by simp [leaves]))

include like

theorem startBody_tracks :
    Tracks more ⟨flags, .loop l₀⟩ (Input.Leads more) (startBody flags l) (startBody flags m) := by
  refine .session_bind fun s t _ leads => ?_
  rw [like.running]
  refine .pure fun i j leads' => .inr (.push (.loop ?_) (fun _ => rfl) (.inl rfl) trivial trivial
    rfl ⟨rfl, fun _ s => ⟨_, _, rfl⟩⟩ (.inl leads'))
  exact { like with stage := rfl, running := rfl, bodyAt := .some (.inl leads) }

theorem startIncrement_tracks :
    Tracks more ⟨flags, .loop l₀⟩ (Input.Leads more) (startIncrement flags l)
      (startIncrement flags m) := by
  refine .session_bind fun s t _ leads => .next_bind (fun _ _ => .inl) (fun token proper => ?_) ?_
  · refine .ite (fun _ => startBody_tracks like l₀) fun _ => .unread_bind proper ?_
    refine Carries.leading (clause_tracks l₀ ?_ rfl trivial rfl rfl rfl (.inr (.inl rfl)))
    exact { like with stage := rfl, incrementAt := .some (.inl leads) }
  · rintro scene ended _ _ ⟨⟩
    exact .owing ended.unread.ahead rfl (site_ofNewlines_ne false)

theorem startCondition_tracks :
    Tracks more ⟨flags, .loop l₀⟩ (Input.Leads more) (startCondition flags l)
      (startCondition flags m) := by
  refine .session_bind fun s t _ leads => .next_bind (fun _ _ => .inl) (fun token proper => ?_) ?_
  · refine .ite (fun _ => ?_) fun _ => .unread_bind proper ?_
    · refine startIncrement_tracks ?_ l₀
      exact { like with running := rfl }
    · refine Carries.leading (clause_tracks l₀ ?_ rfl trivial rfl rfl rfl (.inr (.inl rfl)))
      exact { like with stage := rfl, conditionAt := .some (.inl leads) }
  · rintro scene ended _ _ ⟨⟩
    exact .owing ended.unread.ahead rfl (site_ofNewlines_ne false)

omit like in
theorem resume_bind_tracks {f : Frame} {at₁ at₂ : Option Input} {x y : Unit → Act Move}
    (places : Option.Rel (Site.between.Meets more) at₁ at₂)
    (h : f.Tracks more (Site.between.Meets more) (x ()) (y ())) :
    f.Tracks more (Site.between.Meets more) (resume at₁ >>= x) (resume at₂ >>= y) := by
  cases places with
  | none => exact h
  | some meets => exact .setInput_bind meets h

theorem repeatBody_tracks :
    Tracks more ⟨flags, .loop l₀⟩ (Site.between.Meets more) (repeatBody flags l)
      (repeatBody flags m) := by
  refine resume_bind_tracks like.bodyAt (.pure fun i j meets => .inr ?_)
  refine .push (.loop { like with stage := rfl }) (fun _ => rfl) (.inl rfl) trivial trivial rfl ?_
    meets
  exact ⟨rfl, fun _ s => ⟨_, _, rfl⟩⟩

theorem checkCondition_tracks :
    Tracks more ⟨flags, .loop l₀⟩ (Site.between.Meets more) (checkCondition flags l)
      (checkCondition flags m) := by
  unfold checkCondition
  rw [isSome_of_rel like.conditionAt]
  refine .ite (fun _ => ?_) fun _ => repeatBody_tracks like l₀
  refine resume_bind_tracks like.conditionAt ?_
  exact clause_tracks l₀ { like with stage := rfl } rfl trivial rfl rfl rfl (.inr (.inr rfl))

theorem leaveLoop_tracks :
    Tracks more ⟨flags, .loop l₀⟩ (Site.between.Meets more) (leaveLoop l) (leaveLoop m) :=
  resume_bind_tracks like.endAt (.pure fun _ _ meets => .inr (.done meets))

theorem afterBody_tracks :
    Tracks more ⟨flags, .loop l₀⟩ (Site.between.Meets more) (afterBody flags l)
      (afterBody flags m) := by
  obtain ⟨stage, running, conditionAt, incrementAt, bodyAt, endAt⟩ := l
  obtain ⟨stage', running', conditionAt', incrementAt', bodyAt', endAt'⟩ := m
  obtain rfl : running' = running := like.running
  refine .session_bind fun s t _ meets => ?_
  have ends : Option.Rel (Site.between.Meets more) (endAt.or (some s.input))
      (endAt'.or (some t.input)) := by
    cases like.endAt with
    | none => exact .some meets
    | some meets => exact .some meets
  have like : Loop.Like (Site.between.Meets more)
      ⟨stage, running', conditionAt, incrementAt, bodyAt, endAt.or (some s.input)⟩
      ⟨stage', running', conditionAt', incrementAt', bodyAt', endAt'.or (some t.input)⟩ :=
    { like with endAt := ends }
  dsimp only
  rw [isSome_of_rel like.incrementAt]
  refine .ite (fun _ => leaveLoop_tracks like l₀) fun _ => .ite (fun _ => ?_) fun _ => ?_
  · refine resume_bind_tracks like.incrementAt ?_
    exact clause_tracks l₀ { like with stage := rfl } rfl trivial rfl rfl rfl (.inr (.inr rfl))
  · exact checkCondition_tracks like l₀

end Loop

theorem stepLoop_tracks {l m : Loop} (like : l.Like (Site.between.Meets more) m)
    (inner : Option Phase) :
    Tracks more ⟨flags, .loop l⟩ (Site.between.Meets more) (stepLoop flags l inner)
      (stepLoop flags m inner) := by
  obtain ⟨stage, running, conditionAt, incrementAt, bodyAt, endAt⟩ := l
  obtain ⟨stage', running', conditionAt', incrementAt', bodyAt', endAt'⟩ := m
  obtain rfl : stage' = stage := like.stage
  cases stage' with
  | opening =>
    refine .expect_bind (fun _ _ => Site.Meets.reads) (by simp) ?_
    refine .next_bind (fun _ _ => .inl) (fun t proper => ?_) ?_
    · split
      · exact startCondition_tracks like _
      · refine .pure fun i j leads => .inr (.push (.loop { like with stage := rfl }) (fun _ => rfl)
          (.inl rfl) trivial trivial rfl (.inr (.inl rfl)) (.inl leads))
      · refine .unread_bind proper (Carries.leading
          (clause_tracks _ ?_ rfl trivial rfl rfl rfl (.inr (.inl rfl))))
        exact { like with stage := rfl }
    · rintro scene ended _ _ ⟨⟩
      exact .owing ended.unread.ahead rfl (site_ofNewlines_ne false)
  | afterInit =>
    exact .expect_bind (fun _ _ => Site.Meets.reads) (by simp) (startCondition_tracks like _)
  | afterCondition =>
    refine .session_bind fun s t parallel _ => ?_
    obtain ⟨-, input, token, rfl⟩ := parallel
    refine .expect_bind (fun _ _ => Site.Meets.reads) (by simp) ?_
    refine startIncrement_tracks ?_ _
    exact { like with running := rfl }
  | afterIncrementScan =>
    exact .expect_bind (fun _ _ => Site.Meets.reads) (by simp) (startBody_tracks like _)
  | afterBody =>
    refine .blind_bind (bodyReturns_blind _ inner) fun returns => .ite (fun _ => ?_) fun _ => ?_
    · exact .pure fun i j meets => .inr (.done meets)
    · exact afterBody_tracks like _
  | afterIncrement => exact checkCondition_tracks like _
  | afterLoopCondition =>
    refine .session_bind fun s t parallel _ => ?_
    obtain ⟨-, input, token, rfl⟩ := parallel
    refine .ite (fun _ => ?_) fun _ => leaveLoop_tracks like _
    refine repeatBody_tracks ?_ _
    exact { like with running := rfl }

/-- Whatever a frame does on the shorter script, it does on the longer one or is lost. -/
theorem step_tracks {f g : Frame} (like : f.LikeIn more g) (silent : f.Silent)
    (inner : Option Phase) : f.Tracks more (f.site.Meets more) (f.step inner) (g.step inner) := by
  cases like with
  | loop like => exact stepLoop_tracks like inner
  | same plain =>
    obtain ⟨flags, construct⟩ := f
    cases construct with
    | statement stage => exact stepStatement_tracks stage inner
    | block scope => exact stepBlock_tracks scope inner
    | branch stage => exact stepBranch_tracks stage inner
    | loop l => cases plain
    | simple nl stage => exact stepSimple_tracks nl stage
    | declarations nl => exact stepDeclarations_tracks nl inner
    | declaration nl name => exact stepDeclaration_tracks nl name inner
    | returning => exact stepReturning_tracks inner
    | cond nl stage => exact stepCond_tracks nl stage
    | rel nl stage => exact stepRel_tracks nl stage
    | expr nl terms => exact stepExpr_tracks nl terms
    | call name stage => exact stepCall_tracks name silent
    | arguments => exact stepArguments_tracks silent inner

end Frame

end Scriptlet
