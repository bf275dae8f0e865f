import Mathlib.Data.List.Forall2
import Mathlib.Order.Defs.PartialOrder
import Scriptlet.Proofs.Serials

/-!
Sessions that differ only in how their blocks are numbered. The serials of two runs are paired off
one to one; the pairs grow as blocks are opened, and ids, the texts that name them and the faults
about them are compared by the pairs. Every request finds the same on both sides of such a pairing.
-/

namespace Scriptlet

/-- Serials of two runs paired off, each with at most one of the other. -/
structure Renaming where
  Links : UInt32 → UInt32 → Prop
  functional : ∀ {x y z}, Links x y → Links x z → y = z
  injective : ∀ {x y z}, Links x z → Links y z → x = y

namespace Renaming

instance : Preorder Renaming where
  le ρ σ := ∀ x y, ρ.Links x y → σ.Links x y
  le_refl _ _ _ h := h
  le_trans _ _ _ h k x y links := k x y (h x y links)

def upTo (counter : UInt32) : Renaming where
  Links x y := x = y ∧ x.toNat ≤ counter.toNat
  functional := by
    rintro x y z ⟨rfl, _⟩ ⟨rfl, _⟩
    rfl
  injective := by
    rintro x y z ⟨rfl, _⟩ ⟨rfl, _⟩
    rfl

def extend (ρ : Renaming) (x y : UInt32) (left : ∀ z, ¬ρ.Links x z) (right : ∀ z, ¬ρ.Links z y) :
    Renaming where
  Links a b := ρ.Links a b ∨ a = x ∧ b = y
  functional := by
    rintro a b c (h | ⟨rfl, rfl⟩) (k | ⟨same, rfl⟩)
    · exact ρ.functional h k
    · exact absurd (same ▸ h) (left _)
    · exact absurd k (left _)
    · rfl
  injective := by
    rintro a b c (h | ⟨rfl, rfl⟩) (k | ⟨rfl, same⟩)
    · exact ρ.injective h k
    · exact absurd (same ▸ h) (right _)
    · exact absurd k (right _)
    · rfl

variable {ρ σ : Renaming}

theorem links_iff {x y x' y' : UInt32} (h : ρ.Links x y) (h' : ρ.Links x' y') :
    y = y' ↔ x = x' := by
  constructor
  · rintro rfl
    exact ρ.injective h h'
  · rintro rfl
    exact ρ.functional h h'

def Names (ρ : Renaming) (a b : BlockId) : Prop := b.depth = a.depth ∧ ρ.Links a.serial b.serial

theorem Names.mono {a b : BlockId} (h : ρ.Names a b) (le : ρ ≤ σ) : σ.Names a b :=
  ⟨h.1, le _ _ h.2⟩

/-- Texts that are the same except for the serials in the ids they name. -/
inductive Texts (ρ : Renaming) : String → String → Prop where
  | same (text : String) : Texts ρ text text
  | block {a b : BlockId} : ρ.Names a b → Texts ρ a.text b.text
  | append {a b c d : String} : Texts ρ a b → Texts ρ c d → Texts ρ (a ++ c) (b ++ d)

theorem Texts.mono {a b : String} (h : ρ.Texts a b) (le : ρ ≤ σ) : σ.Texts a b := by
  induction h with
  | same text => exact .same text
  | block names => exact .block (names.mono le)
  | append _ _ ih ih' => exact .append ih ih'

theorem texts_mono {a b : Option String} (h : Option.Rel ρ.Texts a b) (le : ρ ≤ σ) :
    Option.Rel σ.Texts a b := by
  cases h with
  | none => exact .none
  | some texts => exact .some (texts.mono le)

inductive Causes (ρ : Renaming) : Fault.Cause → Fault.Cause → Prop where
  | same (cause : Fault.Cause) : Causes ρ cause cause
  | notInnermost {a b : BlockId} : ρ.Names a b →
      Causes ρ (.blockNotInnermost a) (.blockNotInnermost b)
  | notOpen {a b : BlockId} : ρ.Names a b → Causes ρ (.blockNotOpen a) (.blockNotOpen b)
  | reported (kind : Fault.Kind) {a b : String} : ρ.Texts a b →
      Causes ρ (.reported kind a) (.reported kind b)

namespace Causes

variable {c d : Fault.Cause}

theorem mono (h : ρ.Causes c d) (le : ρ ≤ σ) : σ.Causes c d := by
  cases h with
  | same => exact .same c
  | notInnermost names => exact .notInnermost (names.mono le)
  | notOpen names => exact .notOpen (names.mono le)
  | reported kind texts => exact .reported kind (texts.mono le)

theorem text (h : ρ.Causes c d) : ρ.Texts c.text d.text := by
  cases h with
  | same => exact .same c.text
  | notInnermost names =>
    exact .append (.same _) (.append (.append (.same _) (.block names)) (.same _))
  | notOpen names => exact .append (.same _) (.append (.append (.same _) (.block names)) (.same _))
  | reported kind texts => exact .append (.same _) texts

end Causes

inductive Closings (ρ : Renaming) : Except Fault.Cause Unit → Except Fault.Cause Unit → Prop where
  | ok : Closings ρ (.ok ()) (.ok ())
  | error {c d : Fault.Cause} : ρ.Causes c d → Closings ρ (.error c) (.error d)

def Faults (ρ : Renaming) (f g : Fault) : Prop := g.line = f.line ∧ ρ.Causes f.cause g.cause

theorem Faults.refl (ρ : Renaming) (f : Fault) : ρ.Faults f f := ⟨rfl, .same f.cause⟩

theorem Faults.mono {f g : Fault} (h : ρ.Faults f g) (le : ρ ≤ σ) : σ.Faults f g :=
  ⟨h.1, h.2.mono le⟩

theorem Faults.orLine {f g : Fault} (h : ρ.Faults f g) (line : Nat) :
    ρ.Faults (f.orLine line) (g.orLine line) := by
  obtain ⟨same, causes⟩ := h
  unfold Fault.orLine
  rw [same]
  split
  · exact ⟨rfl, causes⟩
  · exact ⟨same, causes⟩

inductive Outcomes (ρ : Renaming) {α : Type} : Except Fault α → Except Fault α → Prop where
  | ok (a : α) : Outcomes ρ (.ok a) (.ok a)
  | error {f g : Fault} : ρ.Faults f g → Outcomes ρ (.error f) (.error g)

theorem Outcomes.mono {α : Type} {r r' : Except Fault α} (h : ρ.Outcomes r r') (le : ρ ≤ σ) :
    σ.Outcomes r r' := by
  cases h with
  | ok a => exact .ok a
  | error faults => exact .error (faults.mono le)

end Renaming

/-! ### Stacks of blocks -/

def Block.Renamed (ρ : Renaming) (a b : Block) : Prop :=
  ρ.Links a.serial b.serial ∧ b.bindings = a.bindings

/-- The blocks of two stacks correspond, and neither counter will hand out again a serial that has a
partner. The second counter is behind the first. -/
structure ScopeStack.Renamed (ρ : Renaming) (s t : ScopeStack) : Prop where
  globals : t.globals = s.globals
  blocks : List.Forall₂ (Block.Renamed ρ) s.blocks t.blocks
  passed : ∀ {x y}, ρ.Links x y → x.toNat ≤ s.serial.toNat ∧ y.toNat ≤ t.serial.toNat
  behind : t.serial.toNat ≤ s.serial.toNat

namespace ScopeStack

variable {ρ : Renaming} {s t : ScopeStack}

theorem Numbered.renamed (h : s.Numbered) : s.Renamed (.upTo s.serial) s where
  globals := rfl
  blocks := by
    refine List.forall₂_same.mpr fun block mem => ⟨⟨rfl, ?_⟩, rfl⟩
    exact h block.serial (List.mem_map_of_mem mem)
  passed := by
    rintro x y ⟨rfl, passed⟩
    exact ⟨passed, passed⟩
  behind := Nat.le_refl _

theorem findSome?_renamed {xs ys : List Block} (h : List.Forall₂ (Block.Renamed ρ) xs ys)
    (name : String) :
    ys.findSome? (·.bindings.get? name) = xs.findSome? (·.bindings.get? name) := by
  induction h with
  | nil => rfl
  | cons head _ ih => simp only [List.findSome?_cons, head.2, ih]

theorem assignIn_renamed {xs ys : List Block} (h : List.Forall₂ (Block.Renamed ρ) xs ys)
    (name value : String) :
    Option.Rel (List.Forall₂ (Block.Renamed ρ)) (assignIn name value xs)
      (assignIn name value ys) := by
  induction h with
  | nil => exact .none
  | @cons a b xs ys head tail ih =>
    rw [assignIn, assignIn, head.2]
    split
    · exact .some (.cons ⟨head.1, rfl⟩ tail)
    · generalize assignIn name value xs = us, assignIn name value ys = vs at ih ⊢
      cases ih with
      | none => exact .none
      | some outer => exact .some (.cons head outer)

namespace Renamed

theorem depth (h : s.Renamed ρ t) : t.depth = s.depth := h.blocks.length_eq.symm

theorem get? (h : s.Renamed ρ t) (name : String) : t.get? name = s.get? name := by
  rw [ScopeStack.get?, ScopeStack.get?, findSome?_renamed h.blocks, h.globals]

theorem setGlobal (h : s.Renamed ρ t) (name value : String) :
    (s.setGlobal name value).Renamed ρ (t.setGlobal name value) :=
  { h with globals := congrArg (Table.insert · name value) h.globals }

theorem setLocal (h : s.Renamed ρ t) (name value : String) :
    (s.setLocal name value).Renamed ρ (t.setLocal name value) := by
  have blocks := h.blocks
  unfold ScopeStack.setLocal
  generalize s.blocks = xs, t.blocks = ys at blocks
  cases blocks with
  | nil => exact h.setGlobal name value
  | cons head tail =>
    exact { h with blocks := .cons ⟨head.1, congrArg (Table.insert · name value) head.2⟩ tail }

theorem assign (h : s.Renamed ρ t) (name value : String) :
    (s.assign name value).Renamed ρ (t.assign name value) := by
  have blocks := assignIn_renamed h.blocks name value
  unfold ScopeStack.assign
  generalize assignIn name value s.blocks = xs, assignIn name value t.blocks = ys at blocks
  cases blocks with
  | none => exact h.setGlobal name value
  | some blocks => exact { h with blocks }

theorem truncate (h : s.Renamed ρ t) (depth : Nat) :
    (s.truncate depth).Renamed ρ (t.truncate depth) := by
  refine { h with blocks := ?_ }
  simp only [ScopeStack.truncate, ← h.blocks.length_eq]
  exact List.forall₂_drop _ h.blocks

theorem isOpen (h : s.Renamed ρ t) {a b : BlockId} (names : ρ.Names a b) :
    t.isOpen b = s.isOpen a := by
  have blocks := h.blocks
  clear h
  rw [Bool.eq_iff_iff]
  generalize hx : s.blocks = xs, hy : t.blocks = ys at blocks
  induction blocks generalizing s t with
  | nil => rw [isOpen_nil hx, isOpen_nil hy]
  | @cons a b xs ys head tail ih =>
    have outer := ih (s := { s with blocks := xs }) (t := { t with blocks := ys }) rfl rfl
    rw [isOpen_cons hx, isOpen_cons hy, outer, ← tail.length_eq, names.1,
      ρ.links_iff names.2 head.1]

/-- Corresponding blocks close together, or not at all. -/
theorem close (h : s.Renamed ρ t) {a b : BlockId} (names : ρ.Names a b) :
    (∃ s' t', s.close a = .ok s' ∧ t.close b = .ok t' ∧ s'.Renamed ρ t') ∨
      ∃ c d, s.close a = .error c ∧ t.close b = .error d ∧ ρ.Causes c d := by
  have refusal : ρ.Causes (s.refusal a) (t.refusal b) := by
    unfold ScopeStack.refusal
    rw [h.isOpen names]
    split
    · exact .notInnermost names
    · exact .notOpen names
  have blocks := h.blocks
  unfold ScopeStack.close
  rw [h.depth, names.1]
  generalize s.blocks = xs, t.blocks = ys at blocks
  cases blocks with
  | nil => exact .inr ⟨_, _, rfl, rfl, refusal⟩
  | cons head tail =>
    simp only [ρ.links_iff head.1 names.2]
    split
    · exact .inl ⟨_, _, rfl, rfl, { h with blocks := tail }⟩
    · exact .inr ⟨_, _, rfl, rfl, refusal⟩

/-- Opening a block on both sides makes the new serials partners. -/
theorem openBlock (h : s.Renamed ρ t) (few : s.serial.toNat + 1 < 2 ^ 32) :
    ∃ σ, ρ ≤ σ ∧ σ.Names s.openBlock.1 t.openBlock.1 ∧ s.openBlock.2.Renamed σ t.openBlock.2 := by
  have behind := h.behind
  have few' : t.serial.toNat + 1 < 2 ^ 32 := by omega
  have left : (nextSerial s.serial).toNat = s.serial.toNat + 1 := toNat_nextSerial few
  have right : (nextSerial t.serial).toNat = t.serial.toNat + 1 := toNat_nextSerial few'
  have fresh : ∀ z, ¬ρ.Links (nextSerial s.serial) z := by
    intro z links
    have := (h.passed links).1
    omega
  have fresh' : ∀ z, ¬ρ.Links z (nextSerial t.serial) := by
    intro z links
    have := (h.passed links).2
    omega
  let σ := ρ.extend _ _ fresh fresh'
  have le : ρ ≤ σ := fun _ _ links => .inl links
  have pair : σ.Links (nextSerial s.serial) (nextSerial t.serial) := .inr ⟨rfl, rfl⟩
  refine ⟨σ, le, ⟨?_, pair⟩, ?_⟩
  · simp only [ScopeStack.openBlock, List.length_cons, h.blocks.length_eq]
  · have older := h.blocks.imp fun _ _ old => (⟨le _ _ old.1, old.2⟩ : Block.Renamed σ _ _)
    refine ⟨h.globals, .cons ⟨pair, rfl⟩ older, ?_, ?_⟩
    · rintro x y (links | ⟨rfl, rfl⟩)
      · have := h.passed links
        simp only [ScopeStack.openBlock]
        omega
      · exact ⟨Nat.le_refl _, Nat.le_refl _⟩
    · simp only [ScopeStack.openBlock]
      omega

/-- Meanwhile the first counter may move on. -/
theorem advance (h : s.Renamed ρ t) {serial : UInt32} (le : s.serial.toNat ≤ serial.toNat) :
    ({ s with serial } : ScopeStack).Renamed ρ t where
  globals := h.globals
  blocks := h.blocks
  passed links := ⟨Nat.le_trans (h.passed links).1 le, (h.passed links).2⟩
  behind := Nat.le_trans h.behind le

end Renamed

end ScopeStack

/-! ### Sessions -/

structure Session.Renamed (ρ : Renaming) (s t : Session) : Prop where
  scopes : s.scopes.Renamed ρ t.scopes
  report : Option.Rel ρ.Texts s.report t.report
  rest : t = { s with scopes := t.scopes, report := t.report }

namespace Session.Renamed

variable {ρ : Renaming} {s t : Session}

/-- A change that concerns neither the blocks nor the report. -/
theorem update (h : s.Renamed ρ t) (f : Session → Session)
    (plain : ∀ s scopes report, f { s with scopes, report } = { f s with scopes, report }) :
    (f s).Renamed ρ (f t) := by
  have left : f s = { f s with scopes := s.scopes, report := s.report } := plain s s.scopes s.report
  have right : f t = { f s with scopes := t.scopes, report := t.report } := by
    rw [h.rest]
    exact plain s t.scopes t.report
  rw [left, right]
  exact ⟨h.scopes, h.report, rfl⟩

/-- Two changes of the blocks that keep them in correspondence. -/
theorem withScopes {σ : Renaming} (h : s.Renamed ρ t) (le : ρ ≤ σ) {scopes scopes' : ScopeStack}
    (renamed : scopes.Renamed σ scopes') :
    ({ s with scopes } : Session).Renamed σ { t with scopes := scopes' } where
  scopes := renamed
  report := ρ.texts_mono h.report le
  rest := congrArg (fun u : Session => { u with scopes := scopes' }) h.rest

theorem withReport (h : s.Renamed ρ t) {text text' : String} (texts : ρ.Texts text text') :
    ({ s with report := some text } : Session).Renamed ρ { t with report := some text' } where
  scopes := h.scopes
  report := .some texts
  rest := congrArg (fun u : Session => { u with report := some text' }) h.rest

/-- Both sessions get the same tables. -/
theorem withTables (h : s.Renamed ρ t) (globals : Table String) (functions : Table Callable) :
    ({ s with scopes := { s.scopes with globals }, functions } : Session).Renamed ρ
      { t with scopes := { t.scopes with globals }, functions } := by
  have scopes : ({ s.scopes with globals } : ScopeStack).Renamed ρ { t.scopes with globals } :=
    { h.scopes with globals := rfl }
  exact (h.withScopes le_rfl scopes).update (fun s => { s with functions }) fun _ _ _ => rfl

theorem input (h : s.Renamed ρ t) : t.input = s.input := by rw [h.rest]

theorem line (h : s.Renamed ρ t) : t.line = s.line :=
  congrArg Input.line h.input

theorem recordFault (h : s.Renamed ρ t) {f g : Fault} (faults : ρ.Faults f g) :
    (s.recordFault f).Renamed ρ (t.recordFault g) := by
  refine h.withReport ?_
  have line : (g.orLine t.line).line = (f.orLine s.line).line := by
    rw [h.line]
    exact (faults.orLine s.line).1
  simp only [Session.reportText, line, h.input]
  have head := (faults.2.text.append (.same "\n At line ")).append
    (.same (toString (f.orLine s.line).line))
  exact ((head.append (.same _)).append (.same _)).append (.same _)

theorem setError (h : s.Renamed ρ t) {a b : String} (texts : ρ.Texts a b) :
    (s.setError a).Renamed ρ (t.setError b) := by
  refine h.withReport ?_
  simp only [Session.reportText, h.line, h.input]
  have head := (texts.append (.same "\n At line ")).append (.same (toString s.line))
  exact ((head.append (.same _)).append (.same _)).append (.same _)

theorem resembles (h : s.Renamed ρ t) : s.Resembles t where
  input := h.input
  result := by rw [h.rest]
  call := by rw [h.rest]
  functions := by rw [h.rest]
  values := h.scopes.get?

/-- No frame but that of a block sees how blocks are numbered. -/
theorem unseen (ρ : Renaming) : Session.Unseen (Renamed ρ) where
  resembles := resembles
  input input h := h.update (fun s => { s with input }) fun _ _ _ => rfl
  token token h := h.update (fun s => { s with token }) fun _ _ _ => rfl
  result result h := h.update (fun s => { s with result }) fun _ _ _ => rfl
  call call h := h.update (fun s => { s with call }) fun _ _ _ => rfl
  assign name value h := h.withScopes le_rfl (h.scopes.assign name value)
  setLocal name value h := h.withScopes le_rfl (h.scopes.setLocal name value)

end Session.Renamed

/-! ### Requests -/

def Request.Agrees (ρ : Renaming) : (r : Request) → r.Answer → r.Answer → Prop
  | .openBlock, a, b => ρ.Names a b
  | .report, a, b => Option.Rel ρ.Texts a b
  | _, a, b => b = a

def Request.namesNoBlock : Request → Bool
  | .closeBlock _ => false
  | _ => true

theorem Request.Agrees.mono {ρ σ : Renaming} {r : Request} {a b : r.Answer}
    (h : r.Agrees ρ a b) (le : ρ ≤ σ) : r.Agrees σ a b := by
  cases r with
  | openBlock => exact Renaming.Names.mono h le
  | report => exact Renaming.texts_mono h le
  | _ => exact h

namespace Session.Renamed

variable {ρ : Renaming} {s t : Session}

/-- A request that concerns neither the blocks nor the report. -/
theorem answer_plain (h : s.Renamed ρ t) (r : Request)
    (plain : ∀ (s : Session) (scopes : ScopeStack) (report : Option String),
      ({ s with scopes, report } : Session).answer r =
        ((s.answer r).1, { (s.answer r).2.1 with scopes, report }, (s.answer r).2.2)) :
    (t.answer r).1 = (s.answer r).1 ∧ (s.answer r).2.1.Renamed ρ (t.answer r).2.1 := by
  refine ⟨?_, h.update (fun s => (s.answer r).2.1) ?_⟩
  · rw [h.rest, plain]
  · intro s scopes report
    rw [plain]

theorem answer (h : s.Renamed ρ t) (few : s.scopes.serial.toNat + 1 < 2 ^ 32) {r : Request}
    (noBlock : r.namesNoBlock = true) :
    ∃ σ, ρ ≤ σ ∧ r.Agrees σ (s.answer r).1 (t.answer r).1 ∧
      (s.answer r).2.1.Renamed σ (t.answer r).2.1 := by
  cases r with
  | openBlock =>
    obtain ⟨σ, le, names, scopes⟩ := h.scopes.openBlock few
    exact ⟨σ, le, names, h.withScopes le scopes⟩
  | closeBlock id => cases noBlock
  | report => exact ⟨ρ, le_rfl, h.report, h⟩
  | setError message => exact ⟨ρ, le_rfl, rfl, h.setError (.same message)⟩
  | getVar name => exact ⟨ρ, le_rfl, h.scopes.get? name, h⟩
  | setVar name value => exact ⟨ρ, le_rfl, rfl, h.withScopes le_rfl (h.scopes.assign name value)⟩
  | setLocal name value =>
    exact ⟨ρ, le_rfl, rfl, h.withScopes le_rfl (h.scopes.setLocal name value)⟩
  | setGlobal name value =>
    exact ⟨ρ, le_rfl, rfl, h.withScopes le_rfl (h.scopes.setGlobal name value)⟩
  | blocks => exact ⟨ρ, le_rfl, h.scopes.depth, h⟩
  | _ => exact ⟨ρ, le_rfl, h.answer_plain _ fun _ _ _ => rfl⟩

theorem answer_closeBlock (h : s.Renamed ρ t) {a b : BlockId} (names : ρ.Names a b) :
    ρ.Closings (s.answer (.closeBlock a)).1 (t.answer (.closeBlock b)).1 ∧
      (s.answer (.closeBlock a)).2.1.Renamed ρ (t.answer (.closeBlock b)).2.1 := by
  rcases h.scopes.close names with ⟨s', t', left, right, scopes⟩ | ⟨c, d, left, right, causes⟩
  · simp only [Session.answer, left, right]
    exact ⟨.ok, h.withScopes le_rfl scopes⟩
  · simp only [Session.answer, left, right]
    exact ⟨.error causes, h⟩

end Session.Renamed

end Scriptlet
