import Mathlib.Data.List.ReduceOption
import Scriptlet.Proofs.Watching

/-!
Dealing with the reader. An action reads tokens, puts tokens back and goes back to places where
reading has been before. What it does so is a list of dealings, and the log tells which tokens it
has read. There is one rule for each of the operations that frames are written in, by which an
action is shown to keep its dealings in order: no token is put back where another one is, and no
newline is read where newlines are blank space.
-/

namespace Scriptlet

inductive Dealing where
  | read (phase : Phase) (t : Token)
  /-- A token is put back; `held` is what the slot for it has held. -/
  | unread (t : Token) (held : Option Token)
  | resume (place : Input)
  deriving DecidableEq, Repr

namespace Dealing

def reading? : Dealing → Option (Phase × Token)
  | .read phase t => some (phase, t)
  | _ => none

/-- A newline is read only where newlines are tokens. Only the token just read is put back, and into
an empty slot. Who goes back to one of these places has done nothing with the reader before. -/
def InOrder (places : List Input) (earlier : List Dealing) : Dealing → Prop
  | .read phase t => t.kind = .newline → phase.readsNewlines = true
  | .unread t held => held = none ∧ ∃ phase, earlier.head? = some (.read phase t)
  | .resume place => earlier = [] ∧ place ∈ places

def AllInOrder (places : List Input) : List Dealing → Prop
  | [] => True
  | d :: earlier => d.InOrder places earlier ∧ AllInOrder places earlier

end Dealing

def Event.reading? : Event → Option (Phase × Token)
  | .token phase t => some (phase, t)
  | _ => none

def Fault.Cause.SparesNewlines (c : Fault.Cause) : Prop :=
  ∀ t, c.found? = some t → t.kind ≠ .newline

theorem Fault.Cause.spares_of_found {c : Fault.Cause} {t : Token} (h : c.found? = some t)
    (proper : t.kind ≠ .newline) : c.SparesNewlines := by
  intro u found
  obtain rfl := Option.some.inj (h.symm.trans found)
  exact proper

theorem Fault.Cause.spares_of_none {c : Fault.Cause} (h : c.found? = none) :
    c.SparesNewlines := by
  intro t found
  rw [h] at found
  cases found

@[simp] theorem readsNewlines_lookahead (nl : Bool) : (lookahead nl).readsNewlines = nl := by
  cases nl <;> rfl

/-! ### Readers -/

/-- Where newlines are blank space no newline is taken. -/
theorem Lexer.take_kind (ts : List Token) : (take false ts).1.kind ≠ .newline := by
  induction ts with
  | nil => simp [take, Token.eof]
  | cons t ts ih =>
    by_cases newline : t.kind = .newline
    · rwa [take, if_pos ⟨newline, rfl⟩]
    · rwa [take, if_neg fun skipped => newline skipped.1]

namespace Input

/-- `i.Deals ds j`: the dealings `ds`, the latest of them first, take a reader from `i` to `j`. -/
inductive Deals (i : Input) : List Dealing → Input → Prop where
  | start : Deals i [] i
  | read {ds j k phase t} : Deals i ds j → j.next phase = (t, k) →
      Deals i (.read phase t :: ds) k
  | unread {ds j} (t : Token) : Deals i ds j → Deals i (.unread t j.putback :: ds) (j.unread t)
  | resume {ds j} (place : Input) : Deals i ds j → Deals i (.resume place :: ds) place

theorem Deals.putback_read {i j : Input} {ds : List Dealing} {phase : Phase} {t : Token}
    (h : i.Deals (.read phase t :: ds) j) : j.putback = none := by
  cases h with
  | @read _ k _ _ _ _ read =>
    have empty := k.putback_next phase
    rwa [read] at empty

def Clear (i : Input) : Prop := ∀ t, i.putback = some t → t.kind ≠ .newline

theorem clear_of_empty {i : Input} (h : i.putback = none) : i.Clear := by
  intro t held
  rw [h] at held
  cases held

/-- Where newlines are blank space, only one that has been put back is read. -/
theorem Clear.next {i j : Input} {t : Token} {phase : Phase} (h : i.Clear)
    (read : i.next phase = (t, j)) (newline : t.kind = .newline) : phase.readsNewlines = true := by
  cases held : i.putback with
  | some t' =>
    simp only [Input.next, held] at read
    obtain ⟨rfl, -⟩ := Prod.mk.inj read
    exact absurd newline (h t' held)
  | none =>
    by_contra blank
    have taken := take_tokens held phase
    rw [read, Bool.eq_false_iff.mpr blank] at taken
    have proper := Lexer.take_kind i.tokens
    rw [taken] at proper
    exact proper newline

end Input

namespace Scene

/-- An account of what has been done with the reader since it was at `i`: all in order, and with
the tokens read that the log tells of. -/
structure Account (places : List Input) (i : Input) (ds : List Dealing) (scene : Scene) : Prop where
  deals : i.Deals ds scene.session.input
  inOrder : Dealing.AllInOrder places ds
  told : ds.filterMap Dealing.reading? = scene.journal.filterMap Event.reading?

variable {places : List Input} {i : Input} {ds : List Dealing} {scene scene' : Scene}

namespace Account

theorem of_same (h : scene.Account places i ds)
    (input : scene'.session.input = scene.session.input)
    (told : scene'.journal.filterMap Event.reading? = scene.journal.filterMap Event.reading?) :
    scene'.Account places i ds :=
  ⟨input ▸ h.deals, h.inOrder, told ▸ h.told⟩

theorem input_eq (h : scene.Account places i []) : scene.session.input = i := by
  cases h.deals
  rfl

theorem read {phase : Phase} {t : Token} {j : Input} (h : scene.Account places i ds)
    (read : scene.session.input.next phase = (t, j))
    (proper : t.kind = .newline → phase.readsNewlines = true) :
    (Act.took scene phase t j).Account places i (.read phase t :: ds) :=
  ⟨.read h.deals read, ⟨proper, h.inOrder⟩, by
    simpa [Act.took, Dealing.reading?, Event.reading?] using h.told⟩

theorem unread {phase : Phase} {t : Token} (h : scene.Account places i (.read phase t :: ds)) :
    Account places i (.unread t none :: .read phase t :: ds)
      { scene with session := scene.session.unread t } := by
  refine ⟨?_, ⟨⟨rfl, phase, rfl⟩, h.inOrder⟩, h.told⟩
  have back := Input.Deals.unread t h.deals
  rwa [h.deals.putback_read] at back

/-- Who goes on where reading has begun goes back to no other place. -/
theorem resume (h : scene.Account places i []) {place : Input}
    (found : place = i ∨ place ∈ places) :
    ∃ ds, Account places i ds
      { scene with session := { scene.session with input := place } } := by
  rcases found with rfl | listed
  · exact ⟨[], .start, trivial, h.told⟩
  · exact ⟨_, .resume place h.deals, ⟨⟨rfl, listed⟩, trivial⟩, h.told⟩

end Account

def Steady (places : List Input) (i : Input) (b : Bool) (scene : Scene) : Prop :=
  (∃ ds, scene.Account places i ds) ∧ (b = true → scene.session.input.Clear)

def Untouched (places : List Input) (i : Input) (b : Bool) (scene : Scene) : Prop :=
  scene.Account places i [] ∧ (b = true → scene.session.input.Clear)

def JustRead (places : List Input) (i : Input) (phase : Phase) (t : Token) (scene : Scene) : Prop :=
  ∃ ds, scene.Account places i (.read phase t :: ds)

variable {b b' : Bool}

theorem untouched_start (places : List Input) {s : Session} (slot : b = true → s.input.Clear) :
    Untouched places s.input b { session := s } :=
  ⟨⟨.start, trivial, rfl⟩, slot⟩

theorem Steady.weaken (h : scene.Steady places i b) (le : b' = true → b = true) :
    scene.Steady places i b' :=
  ⟨h.1, fun yes => h.2 (le yes)⟩

theorem Steady.of_same (h : scene.Steady places i b)
    (input : scene'.session.input = scene.session.input)
    (told : scene'.journal.filterMap Event.reading? = scene.journal.filterMap Event.reading?) :
    scene'.Steady places i b := by
  obtain ⟨⟨ds, account⟩, slot⟩ := h
  exact ⟨⟨ds, account.of_same input told⟩, input ▸ slot⟩

theorem Untouched.steady (h : scene.Untouched places i b) : scene.Steady places i b :=
  ⟨⟨[], h.1⟩, h.2⟩

theorem Untouched.weaken (h : scene.Untouched places i b) (le : b' = true → b = true) :
    scene.Untouched places i b' :=
  ⟨h.1, fun yes => h.2 (le yes)⟩

theorem JustRead.steady {phase : Phase} {t : Token} (h : scene.JustRead places i phase t)
    (b : Bool) : scene.Steady places i b := by
  obtain ⟨ds, account⟩ := h
  exact ⟨⟨_, account⟩, fun _ => Input.clear_of_empty account.deals.putback_read⟩

end Scene

/-! ### Actions -/

namespace Act

open Scene

variable {α β : Type} {places : List Input} {i : Input}

def Settled (places : List Input) (i : Input) (Q : α → Scene → Prop) :
    Except Fault α × Scene → Prop
  | (.ok a, last) => Q a last
  | (.error fault, last) => fault.cause.SparesNewlines ∧ last.Steady places i false

def Minds (places : List Input) (i : Input) (P : Scene → Prop) (x : Act α)
    (Q : α → Scene → Prop) : Prop :=
  ∀ scene, P scene → Settled places i Q (x.on scene)

namespace Minds

variable {P : Scene → Prop} {Q : β → Scene → Prop} {b : Bool} {phase : Phase} {t : Token}

theorem pure {Q : α → Scene → Prop} {a : α} (h : ∀ scene, P scene → Q a scene) :
    Minds places i P (pure a : Act α) Q :=
  h

theorem fail {Q : α → Scene → Prop} {cause : Fault.Cause} (h : cause.SparesNewlines) :
    Minds places i (Steady places i b) (fail cause : Act α) Q :=
  fun _ steady => ⟨h, steady.weaken nofun⟩

theorem bind {R : α → Scene → Prop} {x : Act α} {f : α → Act β} (hx : Minds places i P x R)
    (hf : ∀ a, Minds places i (R a) (f a) Q) : Minds places i P (x >>= f) Q := by
  intro scene start
  have settled := hx scene start
  rw [on_bind]
  rcases first : x.on scene with ⟨fault | a, mid⟩
  · rw [first] at settled
    exact settled
  · rw [first] at settled
    exact hf a mid settled

theorem weaken {R : Scene → Prop} {x : Act β} (h : Minds places i R x Q)
    (le : ∀ scene, P scene → R scene) : Minds places i P x Q :=
  fun scene start => h scene (le scene start)

theorem ite {p : Prop} [Decidable p] {x y : Act β} (hx : p → Minds places i P x Q)
    (hy : ¬p → Minds places i P y Q) : Minds places i P (if p then x else y) Q := by
  split
  · exact hx ‹_›
  · exact hy ‹_›

theorem session_bind {f : Session → Act β}
    (h : ∀ scene, P scene → Minds places i P (f scene.session) Q) :
    Minds places i P (session >>= f) Q :=
  fun scene start => h scene start scene start

theorem session_at_bind {f : Session → Act β}
    (h : ∀ s, Minds places i (fun scene => P scene ∧ scene.session = s) (f s) Q) :
    Minds places i P (session >>= f) Q :=
  fun scene start => h scene.session scene ⟨start, rfl⟩

/-! Actions that do not read -/

theorem update {g : Session → Session} (h : ∀ s, (g s).input = s.input) :
    Minds places i (Steady places i b) (update g) fun _ => Steady places i b :=
  fun scene steady => steady.of_same (h scene.session) rfl

theorem emit {e : Event} (h : e.reading? = none) :
    Minds places i (Steady places i b) (emit e) fun _ => Steady places i b :=
  fun _ steady => steady.of_same rfl (List.filterMap_cons_none h)

theorem setSession (s : Session) {s' : Session} (h : s'.input = s.input) :
    Minds places i (fun scene => scene.Steady places i b ∧ scene.session = s) (setSession s')
      fun _ => Steady places i b := by
  rintro scene ⟨steady, rfl⟩
  exact steady.of_same h rfl

theorem ofExcept {r : Except Fault.Cause α} (h : FailsPlainly r) :
    Minds places i (Steady places i b) (ofExcept r) fun _ => Steady places i b := by
  cases r with
  | ok a => exact pure fun _ steady => steady
  | error cause => exact fail (Fault.Cause.spares_of_none (h cause rfl).2)

theorem takeResult :
    Minds places i (Steady places i b) takeResult fun _ => Steady places i b :=
  fun _ steady => steady.of_same rfl rfl

theorem setResult (value : String) :
    Minds places i (Steady places i b) (setResult value) fun _ => Steady places i b :=
  update fun _ => rfl

theorem readVariable (name : String) :
    Minds places i (Steady places i b) (readVariable name) fun _ => Steady places i b := by
  refine session_bind fun scene _ => ?_
  split
  · exact pure fun _ steady => steady
  · exact fail (Fault.Cause.spares_of_none rfl)

theorem openBlock :
    Minds places i (Steady places i b) openBlock fun _ => Steady places i b :=
  fun _ steady => steady.of_same rfl rfl

theorem closeBlock (id : BlockId) :
    Minds places i (Steady places i b) (closeBlock id) fun _ => Steady places i b := by
  refine session_at_bind fun s => ?_
  cases closed : s.scopes.close id with
  | error cause =>
    have plain := s.scopes.close_fails id cause closed
    exact (fail (Fault.Cause.spares_of_none plain.2)).weaken fun _ start => start.1
  | ok scopes =>
    exact (setSession s rfl : Minds places i _ (Act.setSession { s with scopes }) _)

theorem value {flags : Flags} {x : Act String}
    (h : Minds places i (Steady places i b) x fun _ => Steady places i b) :
    Minds places i (Steady places i b) (if flags.executes then x else Pure.pure "")
      fun _ => Steady places i b :=
  ite (fun _ => h) fun _ => pure fun _ steady => steady

/-! Reading -/

/-- A token is read. It is no newline if newlines are blank space, for none has been put back. -/
theorem next_bind {f : Token → Act β} (slot : phase.readsNewlines = false → b = true)
    (h : ∀ t, (t.kind = .newline → phase.readsNewlines = true) →
      Minds places i (JustRead places i phase t) (f t) Q) :
    Minds places i (Steady places i b) (nextToken phase >>= f) Q := by
  refine bind (R := fun t scene => (t.kind = .newline → phase.readsNewlines = true) ∧
    scene.JustRead places i phase t) (fun scene ⟨⟨ds, account⟩, held⟩ => ?_) fun t => ?_
  · rcases read : scene.session.input.next phase with ⟨t, j⟩
    have proper : t.kind = .newline → phase.readsNewlines = true := by
      intro newline
      by_contra blank
      exact blank ((held (slot (Bool.eq_false_iff.mpr blank))).next read newline)
    have just : (took scene phase t j).JustRead places i phase t := ⟨ds, account.read read proper⟩
    rw [on_nextToken read]
    split
    · exact ⟨Fault.Cause.spares_of_none rfl, just.steady false⟩
    · exact ⟨proper, just⟩
  · exact fun scene ⟨proper, just⟩ => h t proper scene just

/-- A token is read where newlines are blank space. -/
theorem read_bind {f : Token → Act β} (blank : phase.readsNewlines = false)
    (h : ∀ t, t.kind ≠ .newline → Minds places i (JustRead places i phase t) (f t) Q) :
    Minds places i (Steady places i true) (nextToken phase >>= f) Q :=
  next_bind (fun _ => rfl) fun t proper => h t fun newline => by
    rw [proper newline] at blank
    cases blank

theorem taken {x : Act β} (h : Minds places i (Steady places i b) x Q) :
    Minds places i (JustRead places i phase t) x Q :=
  h.weaken fun _ just => just.steady b

theorem unread_bind {f : Unit → Act β} (proper : b = true → t.kind ≠ .newline)
    (h : Minds places i (Steady places i b) (f ()) Q) :
    Minds places i (JustRead places i phase t) (unread t >>= f) Q := by
  rintro scene ⟨ds, account⟩
  refine h _ ⟨⟨_, account.unread⟩, fun yes u held => ?_⟩
  obtain rfl : t = u := Option.some.inj held
  exact proper yes

/-- Behind an operand a newline is read only if it ends the construct. -/
theorem look_bind {nl : Bool} {f : Token → Act β}
    (h : ∀ t, (t.kind = .newline → nl = true) →
      Minds places i (JustRead places i (lookahead nl) t) (f t) Q) :
    Minds places i (Steady places i !nl) (nextToken (lookahead nl) >>= f) Q :=
  next_bind (by simp) fun t line => h t (by simpa using line)

/-- What has been read behind an operand is put back, a newline only if it ends the construct. -/
theorem leave_bind {nl : Bool} {f : Unit → Act β} (line : t.kind = .newline → nl = true)
    (h : Minds places i (Steady places i !nl) (f ()) Q) :
    Minds places i (JustRead places i phase t) (unread t >>= f) Q := by
  refine unread_bind (fun blank newline => ?_) h
  rw [line newline] at blank
  cases blank

theorem expect_bind {kind : Token.Kind} {f : Unit → Act β} (blank : phase.readsNewlines = false)
    (h : Minds places i (Steady places i true) (f ()) Q) :
    Minds places i (Steady places i true) (expect phase kind >>= f) Q := by
  rw [expect_bind_eq]
  refine read_bind blank fun t proper => taken (ite (fun _ => ?_) fun _ => h)
  exact fail (Fault.Cause.spares_of_found rfl proper)

/-- Who has done nothing with the reader goes back to one of the places. -/
theorem resume_bind {b' : Bool} {place : Input} {f : Unit → Act β}
    (found : place = i ∨ place ∈ places) (slot : b = true → place.Clear)
    (h : Minds places i (Steady places i b) (f ()) Q) :
    Minds places i (Untouched places i b')
      (Act.update (fun s => { s with input := place }) >>= f) Q :=
  fun _ untouched => h _ ⟨untouched.1.resume found, slot⟩

end Minds

end Act

end Scriptlet
