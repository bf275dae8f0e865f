import Scriptlet.Proofs.Execution
import Scriptlet.Proofs.Expression

/-!
Frames of statements perform effects. What a frame does is put together from what the frames it
pushes do, in the order in which the meaning of the statement puts their effects together.
-/

namespace Scriptlet

variable {H α β : Type}

namespace ScopeStack

def serials (scopes : ScopeStack) : List UInt32 := scopes.blocks.map Block.serial

theorem length_serials (scopes : ScopeStack) : scopes.serials.length = scopes.depth :=
  List.length_map _

theorem depth_eq {scopes others : ScopeStack} (h : scopes.serials = others.serials) :
    scopes.depth = others.depth := by
  rw [← length_serials, h, length_serials]

theorem truncate_depth (scopes : ScopeStack) : scopes.truncate scopes.depth = scopes := by
  simp [truncate, depth]

theorem truncate_truncate (scopes : ScopeStack) {inner outer : Nat} (le : outer ≤ inner) :
    (scopes.truncate inner).truncate outer = scopes.truncate outer := by
  simp only [truncate, List.length_drop, List.drop_drop, mk.injEq, true_and, and_true]
  congr 1
  omega

theorem serials_truncate_opened {scopes inner : ScopeStack}
    (same : inner.serials = scopes.openBlock.2.serials) :
    (inner.truncate scopes.depth).serials = scopes.serials := by
  have depth : inner.blocks.length = scopes.depth + 1 := depth_eq same
  have one : inner.blocks.length - scopes.depth = 1 := by omega
  have drop : (inner.truncate scopes.depth).serials = inner.serials.drop 1 := by
    simp only [serials, truncate, one, List.map_drop]
  rw [drop, same]
  rfl

/-- The block opened last closes, provided that its depth has a number of 32 bits. -/
theorem close_opened {scopes inner : ScopeStack}
    (same : inner.serials = scopes.openBlock.2.serials) :
    inner.close scopes.openBlock.1 =
      if scopes.depth + 1 < UInt32.size then .ok (inner.truncate scopes.depth)
      else .error (inner.refusal scopes.openBlock.1) := by
  have depth : inner.depth = scopes.depth + 1 := depth_eq same
  have number : scopes.openBlock.1.depth.toNat = (scopes.depth + 1) % UInt32.size :=
    UInt32.toNat_ofNat'
  obtain ⟨top, outer, hblocks⟩ : ∃ top outer, inner.blocks = top :: outer := by
    cases h : inner.blocks with
    | nil => simp [ScopeStack.depth, h] at depth
    | cons top outer => exact ⟨top, outer, rfl⟩
  have serial : top.serial = scopes.openBlock.1.serial := by
    simp only [serials, hblocks, List.map_cons] at same
    exact (List.cons.inj same).1
  simp only [close, hblocks, serial, true_and, number, depth]
  by_cases small : scopes.depth + 1 < UInt32.size
  · have one : outer.length + 1 - scopes.depth = 1 := by
      have length : outer.length = scopes.depth := by simpa [ScopeStack.depth, hblocks] using depth
      omega
    simp [Nat.mod_eq_of_lt small, truncate, hblocks, one, small]
  · have large : scopes.depth + 1 ≠ (scopes.depth + 1) % UInt32.size := by
      have := Nat.mod_lt (scopes.depth + 1) (show 0 < UInt32.size by decide)
      omega
    rw [if_neg large, if_neg small]

theorem serials_assignIn {name value : String} {blocks blocks' : List Block}
    (h : assignIn name value blocks = some blocks') :
    blocks'.map Block.serial = blocks.map Block.serial := by
  induction blocks generalizing blocks' with
  | nil => cases h
  | cons block outer ih =>
    rw [assignIn] at h
    split at h
    · obtain rfl := Option.some.inj h
      rfl
    · obtain ⟨outer', houter, rfl⟩ := Option.map_eq_some_iff.mp h
      rw [List.map_cons, List.map_cons, ih houter]

theorem serials_assign (scopes : ScopeStack) (name value : String) :
    (scopes.assign name value).serials = scopes.serials := by
  unfold assign
  split
  · rename_i blocks h
    exact serials_assignIn h
  · rfl

theorem serials_setLocal (scopes : ScopeStack) (name value : String) :
    (scopes.setLocal name value).serials = scopes.serials := by
  unfold setLocal
  split
  · rename_i top outer h
    simp [serials, h]
  · rfl

end ScopeStack

namespace Session

def store (s : Session) : Store := ⟨s.scopes, s.result⟩

def Turned (σ : Store) (s s' : Session) : Prop :=
  ∃ input token, s' = { s with input, token, scopes := σ.scopes, result := σ.result } ∧
    σ.scopes.serials = s.scopes.serials

def Broken (σ : Store) (s s' : Session) : Prop :=
  ∃ input token result call depth scopes,
    s' = { s with input, token, result, call, depth, scopes } ∧
      scopes.truncate s.scopes.depth = σ.scopes

variable {a b c : Session} {σ τ : Store}

theorem Turned.read (s : Session) (input : Input) (token : Token) :
    s.Turned s.store { s with input, token } :=
  ⟨input, token, rfl, rfl⟩

theorem Turned.answer (s : Session) (result : String) :
    s.Turned { s.store with result } { s with result } :=
  ⟨s.input, s.token, rfl, rfl⟩

theorem Turned.trans (h : a.Turned σ b) (k : b.Turned τ c) : a.Turned τ c := by
  obtain ⟨_, _, rfl, same⟩ := h
  obtain ⟨input, token, rfl, same'⟩ := k
  exact ⟨input, token, rfl, same'.trans same⟩

theorem Turned.broken (h : a.Turned σ b) (k : b.Broken τ c) : a.Broken τ c := by
  obtain ⟨_, _, rfl, same⟩ := h
  obtain ⟨input, token, result, call, depth, scopes, rfl, left⟩ := k
  have same : σ.scopes.depth = a.scopes.depth := ScopeStack.depth_eq same
  exact ⟨input, token, result, call, depth, scopes, rfl, same ▸ left⟩

theorem Turned.store_eq (h : a.Turned σ b) : b.store = σ := by
  obtain ⟨_, _, rfl, _⟩ := h
  rfl

theorem Turned.leave (h : a.enter.Turned σ b) : a.Turned σ b.leave := by
  obtain ⟨input, token, rfl, same⟩ := h
  exact ⟨input, token, rfl, same⟩

theorem Broken.of_enter (h : a.enter.Broken σ b) : a.Broken σ b := by
  obtain ⟨input, token, result, call, depth, scopes, rfl, left⟩ := h
  exact ⟨input, token, result, call, depth, scopes, rfl, left⟩

structure Fits (lib : Library) (n : Nat) (s : Session) : Prop where
  functions : s.functions = lib.functions
  room : s.depth + n ≤ s.limits.maxDepth

variable {lib : Library} {n m : Nat}

theorem Turned.fits (h : a.Turned σ b) (fits : a.Fits lib n) : b.Fits lib n := by
  obtain ⟨_, _, rfl, _⟩ := h
  exact ⟨fits.functions, fits.room⟩

theorem Fits.mono (h : a.Fits lib n) (le : m ≤ n) : a.Fits lib m :=
  ⟨h.functions, Nat.le_trans (Nat.add_le_add_left le _) h.room⟩

theorem Fits.read (h : a.Fits lib n) {input : Input} {token : Token} :
    Fits lib n { a with input, token } :=
  ⟨h.functions, h.room⟩

theorem Fits.enter (h : a.Fits lib (1 + n)) : a.enter.Fits lib n :=
  ⟨h.functions, by
    have room := h.room
    simp only
    omega⟩

theorem Fits.pos (h : a.Fits lib n) (pos : 0 < n) : a.depth < a.limits.maxDepth := by
  have room := h.room
  omega

theorem Fits.one (h : a.Fits lib (1 + n)) : a.depth < a.limits.maxDepth :=
  h.pos (by omega)

end Session

theorem Session.Spoiled.broken {s s' : Session} (h : s.Spoiled s') : s.Broken s.store s' := by
  obtain ⟨input, token, result, call, depth, rfl⟩ := h
  exact ⟨input, token, result, call, depth, s.scopes, rfl, s.scopes.truncate_depth⟩

def Flow.phase (done : Phase) : Flow → Phase
  | .normal => done
  | .returned => .ret

/-- The frame called `name` that does `x` has the effect `e`, whose answer tells the phase it
completes in; unless a `return` ends it, reading goes on from there as from `j`. -/
structure Performs (host : Host H) (name : String) (x : Act Move) (s : Session) (e : Effect α)
    (done : α → Phase) (j : Input) : Prop where
  ok : ∀ {a}, e.outcome = .ok a → ∃ s', s.Turned e.store s' ∧
    (done a ≠ .ret → s'.input.Streams [] j) ∧ Runs host name x s (.ok (done a)) s'.leave e.calls
  error : ∀ {cause}, e.outcome = .error cause → ∃ s', s.Broken e.store s' ∧
    Runs host name x s (.error cause) s' e.calls

namespace Performs

variable {host : Host H} {name : String} {s s₁ : Session} {e : Effect α} {done : α → Phase}
  {i j : Input}

theorem of_ok {x : Act Move} {a : α} (out : e.outcome = .ok a) (turned : s.Turned e.store s₁)
    (place : done a ≠ .ret → s₁.input.Streams [] j)
    (run : Runs host name x s (.ok (done a)) s₁.leave e.calls) :
    Performs host name x s e done j where
  ok := by
    intro a' out'
    obtain rfl := Except.ok.inj (out.symm.trans out')
    exact ⟨s₁, turned, place, run⟩
  error := by
    intro cause out'
    cases out.symm.trans out'

theorem of_error {x : Act Move} {cause : Fault.Cause} (out : e.outcome = .error cause)
    (broken : s.Broken e.store s₁) (run : Runs host name x s (.error cause) s₁ e.calls) :
    Performs host name x s e done j where
  ok := by
    intro a out'
    cases out.symm.trans out'
  error := by
    intro cause' out'
    obtain rfl := Except.error.inj (out.symm.trans out')
    exact ⟨s₁, broken, run⟩

/-- Something done first that only reads on or changes the store. -/
theorem gives {x : Act β} {f : β → Act Move} {b : β} {σ : Store} (h : x.Gives s b s₁)
    (turned : s.Turned σ s₁) (k : Performs host name (f b) s₁ e done j) :
    Performs host name (x >>= f) s e done j where
  ok := by
    intro flow he
    obtain ⟨s', turned', place, run⟩ := k.ok he
    exact ⟨s', turned.trans turned', place, run.gives h⟩
  error := by
    intro cause he
    obtain ⟨s', broken, run⟩ := k.error he
    exact ⟨s', turned.broken broken, run.gives h⟩

theorem moves {x : Act Move} {move : Move} {σ : Store} (h : x.Gives s move s₁)
    (turned : s.Turned σ s₁) (k : Performs host name (pure move) s₁ e done j) :
    Performs host name x s e done j := by
  have whole : Performs host name (x >>= pure) s e done j := gives h turned k
  rwa [bind_pure] at whole

theorem finish {phase : Phase} (a : α) (same : done a = phase)
    (place : phase ≠ .ret → s.input.Streams [] j) :
    Performs host name (pure (.done phase)) s ⟨.ok a, s.store, []⟩ done j := by
  subst same
  exact of_ok rfl ⟨s.input, s.token, rfl, rfl⟩ place (.done _ s)

theorem fails {x : Act Move} {cause : Fault.Cause} (h : x.Fails s cause s₁)
    (broken : s.Broken e.store s₁) (he : e.outcome = .error cause) (none : e.calls = []) :
    Performs host name x s e done j :=
  of_error he broken (none ▸ .fails h)

theorem stay {self : Frame} (called : self.name = name)
    (h : Performs host name (self.step none) s e done j) :
    Performs host name (pure (.stay self)) s e done j where
  ok := by
    subst called
    intro flow he
    obtain ⟨s', turned, place, run⟩ := h.ok he
    exact ⟨s', turned, place, run.stay⟩
  error := by
    subst called
    intro cause he
    obtain ⟨s', broken, run⟩ := h.error he
    exact ⟨s', broken, run.stay⟩

/-- A frame that ends with a change of the store, if it executes. -/
theorem change {x : Act Unit} {f : Store → Store} {exe : Bool} {e : Effect Unit} {done : Phase}
    (back : s.input.Streams [] j)
    (act : exe = true →
      x.Gives s () { s with scopes := (f s.store).scopes, result := (f s.store).result })
    (same : (f s.store).scopes.serials = s.scopes.serials)
    (meaning : (Meaning.change f).when exe s.store e) :
    Performs host name ((if exe then x else pure ()) >>= fun _ => pure (.done done)) s e
      (fun _ => done) j := by
  cases exe with
  | false =>
    obtain rfl : e = ⟨.ok (), s.store, []⟩ := meaning
    exact .gives (Act.gives_pure () s) (.read s s.input s.token) (.finish () rfl fun _ => back)
  | true =>
    obtain rfl : e = ⟨.ok (), f s.store, []⟩ := meaning
    exact .gives (act rfl) ⟨s.input, s.token, rfl, same⟩ (.finish () rfl fun _ => back)

/-- A frame that pushes another one goes on with the store that one leaves, if it does not fail. -/
theorem after {self child : Frame} (inside : β → Phase) {e₁ : Effect β}
    {next : β → Effect α → Prop} (called : self.name = name)
    (room : s.depth < s.limits.maxDepth) (total : e₁.Then next e)
    (ok : ∀ {b}, e₁.outcome = .ok b → ∃ s₁, s.Turned e₁.store s₁ ∧
      Runs host child.name (child.step none) s.enter (.ok (inside b)) s₁ e₁.calls ∧
      ∀ e₂, next b e₂ → Performs host name (self.step (some (inside b))) s₁ e₂ done j)
    (error : ∀ {cause}, e₁.outcome = .error cause → ∃ s', s.Broken e₁.store s' ∧
      Runs host child.name (child.step none) s.enter (.error cause) s' e₁.calls) :
    Performs host name (pure (.push self child)) s e done j := by
  subst called
  cases he₁ : e₁.outcome with
  | error cause =>
    simp only [Effect.Then, he₁] at total
    subst total
    obtain ⟨s', broken, run⟩ := error he₁
    refine ⟨by rintro _ ⟨⟩, ?_⟩
    rintro _ ⟨⟩
    exact ⟨s', broken, run.push_fails room⟩
  | ok b =>
    simp only [Effect.Then, he₁] at total
    obtain ⟨e₂, allowed, rfl⟩ := total
    obtain ⟨s₁, turned, run, k⟩ := ok he₁
    have later := k e₂ allowed
    constructor
    · intro flow he₂
      obtain ⟨s', turned', place, run'⟩ := later.ok he₂
      exact ⟨s', turned.trans turned', place, run.push room run'⟩
    · intro cause he₂
      obtain ⟨s', broken, run'⟩ := later.error he₂
      exact ⟨s', turned.broken broken, run.push room run'⟩

theorem push {self child : Frame} {inside : β → Phase} {m : Meaning β} {f : β → Meaning α}
    (called : self.name = name) (room : s.depth < s.limits.maxDepth)
    (meaning : (m >>= f) s.store e)
    (h : ∀ e₁, m s.store e₁ → Performs host child.name (child.step none) s.enter e₁ inside i)
    (k : ∀ b e₂ s₁, s.Turned s₁.store s₁ → (inside b ≠ .ret → s₁.input.Streams [] i) →
      f b s₁.store e₂ → Performs host name (self.step (some (inside b))) s₁ e₂ done j) :
    Performs host name (pure (.push self child)) s e done j := by
  obtain ⟨e₁, inner, total⟩ := meaning
  have performs := h e₁ inner
  refine after inside called room total ?_ ?_
  · intro b he₁
    obtain ⟨s', turned, place, run⟩ := performs.ok he₁
    have store := turned.leave.store_eq
    refine ⟨s'.leave, turned.leave, run, fun e₂ allowed => ?_⟩
    rw [← store] at allowed
    exact k b e₂ s'.leave (store ▸ turned.leave) place allowed
  · intro cause he₁
    obtain ⟨s', broken, run⟩ := performs.error he₁
    exact ⟨s', broken.of_enter, run⟩

/-- An expression that a frame pushes leaves its value as the result, if it is executed. -/
theorem cond {lib : Library} {observe : Event → H → H} {self : Frame} (c : Syntax.Cond)
    {flags : Flags} {nl : Bool} {seed : Option Token} {t : Token} {behind : Input}
    {f : String → Meaning α} (called : self.name = name) (fits : s.Fits lib c.depth)
    (read : s.input.Seeded seed (c.lexemes.map Lexeme.token) i)
    (follows : i.Follows (lookahead nl) Token.Kind.endsCond t behind)
    (meaning : ((c.value lib).when flags.executes >>= f) s.store e)
    (k : ∀ v e₂ s₁,
      s₁ = { s with
        input := behind.unread t
        token := t
        result := if flags.executes then v else s.result } → f v s₁.store e₂ →
      Performs (.ofNatives lib.natives observe) name (self.step (some .condDone)) s₁ e₂ done j) :
    Performs (.ofNatives lib.natives observe) name
      (pure (.push self (Frame.newCond flags nl seed))) s e done j := by
  have room := fits.pos c.depth_pos
  have yields : Yields (.ofNatives lib.natives observe) (Frame.newCond flags nl seed) .condDone s
      ((c.eval ⟨s.scopes, lib.functions, lib.natives⟩).when flags.executes) t
      (behind.unread t) := by
    rw [← fits.functions]
    exact c.yields flags nl read follows fits.room
  obtain ⟨e₁, value, total⟩ := meaning
  generalize hev : c.eval ⟨s.scopes, lib.functions, lib.natives⟩ = ev at yields
  cases exe : flags.executes with
  | false =>
    rw [exe] at value yields
    obtain rfl : e₁ = ⟨.ok default, s.store, []⟩ := value
    refine after (fun _ => .condDone) called room total ?_ (by rintro _ ⟨⟩)
    rintro _ ⟨⟩
    have run := yields.ok rfl
    simp only [Frame.newCond, exe, Bool.false_eq_true, if_false] at run k
    exact ⟨_, .read s (behind.unread t) t, run, fun e₂ allowed => k default e₂ _ rfl allowed⟩
  | true =>
    rw [exe] at value yields
    have value : e₁ = .ofEvaluation ev s.store := hev ▸ value
    cases hout : ev.outcome with
    | ok v =>
      obtain rfl : e₁ = ⟨.ok v, { s.store with result := v }, ev.calls⟩ := by
        simp [value, Effect.ofEvaluation, hout]
      refine after (fun _ => .condDone) called room total ?_ (by rintro _ ⟨⟩)
      rintro _ ⟨⟩
      have run := yields.ok hout
      simp only [Frame.newCond, exe, if_true] at run k
      exact ⟨_, ⟨behind.unread t, t, rfl, rfl⟩, run, fun e₂ allowed => k v e₂ _ rfl allowed⟩
    | error cause =>
      obtain rfl : e₁ = ⟨.error cause, s.store, ev.calls⟩ := by
        simp [value, Effect.ofEvaluation, hout]
      refine after (fun _ => .condDone) called room total (by rintro _ ⟨⟩) ?_
      rintro _ ⟨⟩
      obtain ⟨s', spoiled, run⟩ := yields.error hout
      exact ⟨s', spoiled.broken, run⟩

end Performs

end Scriptlet
