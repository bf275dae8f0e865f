import Mathlib.Data.List.Forall2
import Scriptlet.Proofs.Placement
import Scriptlet.Proofs.Reentrancy

/-!
What a script evaluated in a block of its own can do to the scopes below. Declarations go to the
innermost block, which is one of the script's own as long as it runs; assignments may reach further
down. So, however the script ends, all that it leaves behind are values of names that it assigns to.
-/

namespace Scriptlet

namespace ScopeStack

variable {σ τ : ScopeStack} {names : String → Prop}

def tables (σ : ScopeStack) : Table String × List Block := (σ.globals, σ.blocks)

def after (σ : ScopeStack) (writes : List (String × String)) : ScopeStack :=
  writes.foldl (fun τ w => τ.assign w.1 w.2) σ

theorem after_append (σ : ScopeStack) (writes : List (String × String)) (name value : String) :
    σ.after (writes ++ [(name, value)]) = (σ.after writes).assign name value := by
  simp [after]

/-- The counter of serials plays no part in assignments. -/
theorem tables_assign (h : σ.tables = τ.tables) (name value : String) :
    (σ.assign name value).tables = (τ.assign name value).tables := by
  obtain ⟨globals, blocks⟩ := Prod.mk.inj h
  simp only [assign, blocks]
  cases assignIn name value τ.blocks with
  | some outer => simp [tables, globals]
  | none => simp [tables, setGlobal, globals, blocks]

theorem depth_assign (σ : ScopeStack) (name value : String) :
    (σ.assign name value).depth = σ.depth :=
  depth_eq (σ.serials_assign name value)

theorem depth_setLocal (σ : ScopeStack) (name value : String) :
    (σ.setLocal name value).depth = σ.depth :=
  depth_eq (σ.serials_setLocal name value)

theorem assignIn_append (name value : String) (above below : List Block) :
    assignIn name value (above ++ below) =
      match assignIn name value above with
      | some above' => some (above' ++ below)
      | none => (assignIn name value below).map (above ++ ·) := by
  induction above with
  | nil => simp [assignIn]
  | cons block above ih =>
    simp only [List.cons_append, assignIn]
    split
    · rfl
    · rw [ih]
      cases assignIn name value above with
      | some above' => rfl
      | none => simp [Function.comp_def]

theorem length_assignIn {name value : String} {blocks blocks' : List Block}
    (h : assignIn name value blocks = some blocks') : blocks'.length = blocks.length := by
  have same := congrArg List.length (serials_assignIn h)
  simpa using same

/-! ### What assignments leave -/

def Revised (names : String → Prop) (old new : Table String) : Prop :=
  ∀ name, new.contains name = old.contains name ∧ (new.get? name ≠ old.get? name → names name)

theorem Revised.refl (t : Table String) : Revised names t t := fun _ => ⟨rfl, fun h => absurd rfl h⟩

theorem Revised.trans {a b c : Table String} (h : Revised names a b) (k : Revised names b c) :
    Revised names a c := by
  refine fun name => ⟨(k name).1.trans (h name).1, fun differs => ?_⟩
  by_cases same : b.get? name = a.get? name
  · exact (k name).2 (same ▸ differs)
  · exact (h name).2 same

theorem Revised.insert {t : Table String} {name : String} (value : String) (named : names name)
    (bound : t.contains name = true) : Revised names t (t.insert name value) := by
  intro key
  rw [Table.contains, Table.get?_insert]
  by_cases same : key = name
  · subst same
    exact ⟨by simp [bound], fun _ => named⟩
  · simp [same, Table.contains]

def BlocksRevised (names : String → Prop) : List Block → List Block → Prop :=
  List.Forall₂ fun old new => new.serial = old.serial ∧ Revised names old.bindings new.bindings

theorem BlocksRevised.refl (blocks : List Block) : BlocksRevised names blocks blocks :=
  List.forall₂_same.mpr fun block _ => ⟨rfl, .refl block.bindings⟩

theorem BlocksRevised.trans {a b c : List Block} (h : BlocksRevised names a b)
    (k : BlocksRevised names b c) : BlocksRevised names a c := by
  induction h generalizing c with
  | nil => exact k
  | cons head _ ih =>
    cases k with
    | cons head' tail' =>
      exact .cons ⟨head'.1.trans head.1, head.2.trans head'.2⟩ (ih tail')

theorem BlocksRevised.assignIn {name : String} (value : String) (named : names name)
    {blocks blocks' : List Block} (h : assignIn name value blocks = some blocks') :
    BlocksRevised names blocks blocks' := by
  induction blocks generalizing blocks' with
  | nil => cases h
  | cons block outer ih =>
    rw [ScopeStack.assignIn] at h
    split at h
    · rename_i bound
      obtain rfl := Option.some.inj h
      exact .cons ⟨rfl, .insert value named bound⟩ (BlocksRevised.refl outer)
    · obtain ⟨outer', found, rfl⟩ := Option.map_eq_some_iff.mp h
      exact .cons ⟨rfl, .refl _⟩ (ih found)

/-- What assignments to these names can have made of a stack. A name bound nowhere becomes
global. -/
structure Reassigned (names : String → Prop) (σ τ : ScopeStack) : Prop where
  blocks : BlocksRevised names σ.blocks τ.blocks
  globals : ∀ name, (σ.globals.contains name = true → τ.globals.contains name = true) ∧
    (τ.globals.get? name ≠ σ.globals.get? name → names name)

namespace Reassigned

theorem refl (σ : ScopeStack) : σ.Reassigned names σ :=
  ⟨.refl _, fun _ => ⟨id, fun h => absurd rfl h⟩⟩

theorem trans {υ : ScopeStack} (h : σ.Reassigned names τ) (k : τ.Reassigned names υ) :
    σ.Reassigned names υ := by
  refine ⟨h.blocks.trans k.blocks, fun name => ⟨fun bound => ?_, fun differs => ?_⟩⟩
  · exact (k.globals name).1 ((h.globals name).1 bound)
  · by_cases same : τ.globals.get? name = σ.globals.get? name
    · exact (k.globals name).2 (same ▸ differs)
    · exact (h.globals name).2 same

theorem assign (σ : ScopeStack) {name : String} (value : String) (named : names name) :
    σ.Reassigned names (σ.assign name value) := by
  unfold ScopeStack.assign
  split
  · rename_i blocks found
    exact ⟨.assignIn value named found, fun _ => ⟨id, fun h => absurd rfl h⟩⟩
  · refine ⟨.refl _, fun key => ?_⟩
    simp only [setGlobal, Table.contains, Table.get?_insert]
    by_cases same : key = name
    · subst same
      exact ⟨fun _ => by simp, fun _ => named⟩
    · simp [same]

theorem after (σ : ScopeStack) (writes : List (String × String)) (named : ∀ w ∈ writes, names w.1) :
    σ.Reassigned names (σ.after writes) := by
  induction writes generalizing σ with
  | nil => exact .refl σ
  | cons w writes ih =>
    have first := assign σ w.2 (named w (by simp))
    exact first.trans (ih (σ.assign w.1 w.2) fun v hv => named v (by simp [hv]))

theorem of_tables {υ : ScopeStack} (h : σ.Reassigned names τ) (same : υ.tables = τ.tables) :
    σ.Reassigned names υ := by
  obtain ⟨globals, blocks⟩ := Prod.mk.inj same
  exact ⟨blocks ▸ h.blocks, globals ▸ h.globals⟩

/-- The other names mean what they meant. -/
theorem get? (h : σ.Reassigned names τ) {name : String} (differs : τ.get? name ≠ σ.get? name) :
    names name := by
  refine Classical.byContradiction fun other => differs ?_
  have same : ∀ {a b : List Block}, BlocksRevised names a b →
      b.findSome? (·.bindings.get? name) = a.findSome? (·.bindings.get? name) := by
    intro a b revised
    induction revised with
    | nil => rfl
    | cons head _ ih =>
      have same := Classical.not_not.mp fun h => other ((head.2 name).2 h)
      simp only [List.findSome?_cons, same, ih]
  have globals := Classical.not_not.mp fun differs => other ((h.globals name).2 differs)
  rw [ScopeStack.get?, ScopeStack.get?, same h.blocks, globals]

end Reassigned

/-! ### What lies below a depth -/

theorem truncate_append {above below : List Block} (h : σ.blocks = above ++ below) :
    (σ.truncate below.length).tables = (σ.globals, below) := by
  have length : σ.blocks.length - below.length = above.length := by simp [h]
  rw [truncate, length, h]
  simp [tables]

theorem split_at {depth : Nat} (low : depth ≤ σ.depth) :
    ∃ above below : List Block, σ.blocks = above ++ below ∧ below.length = depth := by
  refine ⟨_, _, (List.take_append_drop (σ.blocks.length - depth) σ.blocks).symm, ?_⟩
  have low : depth ≤ σ.blocks.length := low
  rw [List.length_drop]
  omega

/-- A block above a depth binds the name, so that an assignment to it reaches no further down. -/
def Hides (σ : ScopeStack) (depth : Nat) (name : String) : Prop :=
  ∃ block ∈ σ.blocks.take (σ.depth - depth), block.bindings.contains name = true

theorem hides_append {above below : List Block} (h : σ.blocks = above ++ below) (name : String) :
    σ.Hides below.length name ↔ ∃ block ∈ above, block.bindings.contains name = true := by
  have length : σ.depth - below.length = above.length := by simp [depth, h]
  rw [Hides, length, h, List.take_left]

theorem unbound_of_assignIn {name value : String} {blocks : List Block}
    (h : assignIn name value blocks = none) :
    ¬ ∃ block ∈ blocks, block.bindings.contains name = true := by
  induction blocks with
  | nil => simp
  | cons block outer ih =>
    rw [assignIn] at h
    split at h
    · cases h
    · rename_i free
      simpa [free] using ih (Option.map_eq_none_iff.mp h)

section Truncate

variable {depth : Nat}

/-- An assignment changes a binding above, or it is made to what lies below. -/
theorem truncate_assign (low : depth ≤ σ.depth) (name value : String) :
    ((σ.assign name value).truncate depth).tables = (σ.truncate depth).tables ∨
      ¬ σ.Hides depth name ∧ ((σ.assign name value).truncate depth).tables =
        ((σ.truncate depth).assign name value).tables := by
  obtain ⟨above, below, blocks, rfl⟩ := split_at low
  have cut := truncate_append blocks
  have lower : (σ.truncate below.length).tables =
      ({ σ with blocks := below } : ScopeStack).tables := cut
  rw [tables_assign lower, cut, hides_append blocks]
  simp only [assign, blocks, assignIn_append]
  cases free : assignIn name value above with
  | some above' => exact .inl (truncate_append rfl)
  | none =>
    refine .inr ⟨unbound_of_assignIn free, ?_⟩
    cases found : assignIn name value below with
    | none => exact truncate_append blocks
    | some below' =>
      rw [← length_assignIn found]
      exact truncate_append rfl

theorem truncate_setLocal (low : depth < σ.depth) (name value : String) :
    ((σ.setLocal name value).truncate depth).tables = (σ.truncate depth).tables := by
  obtain ⟨above, below, blocks, rfl⟩ := split_at (Nat.le_of_lt low)
  rw [truncate_append blocks]
  cases above with
  | nil => simp [ScopeStack.depth, blocks] at low
  | cons top above =>
    simp only [setLocal, blocks, List.cons_append]
    exact truncate_append (List.cons_append ..).symm

theorem tables_truncate_openBlock (low : depth ≤ σ.depth) :
    (σ.openBlock.2.truncate depth).tables = (σ.truncate depth).tables := by
  obtain ⟨above, below, blocks, rfl⟩ := split_at low
  have opened : σ.openBlock.2.blocks = (⟨nextSerial σ.serial, {}⟩ :: above) ++ below :=
    congrArg (_ :: ·) blocks
  rw [truncate_append blocks]
  exact truncate_append opened

theorem truncate_close {id : BlockId} (closed : σ.close id = .ok τ) (low : depth ≤ τ.depth) :
    (τ.truncate depth).tables = (σ.truncate depth).tables := by
  obtain ⟨top, outer, blocks, _, _, rfl⟩ := close_eq_ok.mp closed
  obtain ⟨above, below, split, rfl⟩ := split_at low
  have whole : σ.blocks = (top :: above) ++ below := blocks.trans (congrArg (top :: ·) split)
  rw [truncate_append split, truncate_append whole]

end Truncate

/-- Above `σ` further blocks are open, and nothing has happened to `σ` itself but these
assignments. -/
structure Covers (made : String → String → Prop) (σ τ : ScopeStack) : Prop where
  deeper : σ.depth < τ.depth
  below : ∃ writes : List (String × String), (∀ w ∈ writes, made w.1 w.2) ∧
    (τ.truncate σ.depth).tables = (σ.after writes).tables

namespace Covers

variable {made : String → String → Prop}

theorem openBlock_self (σ : ScopeStack) : σ.Covers made σ.openBlock.2 where
  deeper := by simp
  below := by
    refine ⟨[], by simp, ?_⟩
    rw [tables_truncate_openBlock (Nat.le_refl _), truncate_depth]
    rfl

/-- An assignment reaches what lies below only if the name is bound nowhere above. -/
theorem edited {υ : ScopeStack} {assigned : String → Prop} (h : σ.Covers made τ)
    (edit : τ.Edited assigned υ)
    (reach : ∀ name value, assigned name → ¬ τ.Hides σ.depth name → υ = τ.assign name value →
      made name value) :
    σ.Covers made υ := by
  obtain ⟨deeper, writes, named, below⟩ := h
  cases edit with
  | refl => exact ⟨deeper, writes, named, below⟩
  | @assign name value isAssigned =>
    refine ⟨by rwa [depth_assign], ?_⟩
    rcases truncate_assign (Nat.le_of_lt deeper) name value with above | ⟨free, reached⟩
    · exact ⟨writes, named, above.trans below⟩
    · have isMade : made name value := reach name value isAssigned free rfl
      refine ⟨writes ++ [(name, value)], ?_, ?_⟩
      · simpa [or_imp, forall_and, isMade] using named
      · rw [reached, after_append]
        exact tables_assign below name value
  | setLocal name value =>
    refine ⟨by rwa [depth_setLocal], writes, named, ?_⟩
    rw [truncate_setLocal deeper, below]

theorem opened (h : σ.Covers made τ) : σ.Covers made τ.openBlock.2 := by
  obtain ⟨deeper, writes, named, below⟩ := h
  refine ⟨by rw [depth_openBlock]; omega, writes, named, ?_⟩
  rw [tables_truncate_openBlock (Nat.le_of_lt deeper), below]

theorem closed {υ : ScopeStack} {id : BlockId} (h : σ.Covers made τ) (closes : τ.close id = .ok υ)
    (deep : σ.depth < υ.depth) : σ.Covers made υ := by
  obtain ⟨_, writes, named, below⟩ := h
  exact ⟨deep, writes, named, (truncate_close closes (Nat.le_of_lt deep)).trans below⟩

theorem truncate {depth : Nat} (h : σ.Covers made τ) (deep : σ.depth < depth) :
    σ.Covers made (τ.truncate depth) := by
  obtain ⟨deeper, writes, named, below⟩ := h
  refine ⟨?_, writes, named, ?_⟩
  · rw [depth_truncate]
    omega
  · rw [truncate_truncate _ (Nat.le_of_lt deep), below]

end Covers

end ScopeStack

namespace Frame

open Act Token

variable {ts : List Token} {trail : List Token.Kind} {σ : ScopeStack} {base : List UInt32}
  {made : String → String → Prop}

/-- Leaving a block closes its own scope only. -/
theorem leaveBlock_covers (phase : Phase) {scope : Option BlockId} {s : Session}
    {r : Except Fault Move} {scene : Scene}
    (h : (leaveBlock scope phase).on { session := s } = (r, scene))
    (kept : Move.Over base scene.session r) (deep : σ.depth < base.length)
    (settled : Settled trail) (here : s.input.Behind ts trail) (covers : σ.Covers made s.scopes) :
    σ.Covers made scene.session.scopes ∧
      ∀ move, r = .ok move → move.Placed ts scene.session.input := by
  cases scope with
  | none =>
    cases h
    refine ⟨covers, ?_⟩
    rintro _ ⟨⟩
    exact ⟨trail, here, settled⟩
  | some id =>
    cases hclose : s.scopes.close id with
    | error cause =>
      rw [on_leaveBlock_refused hclose] at h
      cases h
      exact ⟨covers, by rintro _ ⟨⟩⟩
    | ok scopes =>
      rw [on_leaveBlock_closed hclose] at h
      cases h
      have deep : σ.depth < scopes.depth := by
        rwa [← scopes.length_serials, show scopes.serials = base from kept]
      refine ⟨covers.closed hclose deep, ?_⟩
      rintro _ ⟨⟩
      exact ⟨trail, here, settled⟩

/-- A block opens and closes its own scope only. -/
theorem stepBlock_covers {flags : Flags} {scope : Option BlockId} {inner : Option Phase}
    {s : Session} {r : Except Fault Move} {scene : Scene}
    (h : (stepBlock flags scope inner).on { session := s } = (r, scene))
    (kept : Move.Over base scene.session r) (deep : σ.depth < base.length)
    (settled : Settled trail) (here : s.input.Behind ts trail)
    (covers : σ.Covers made s.scopes) :
    σ.Covers made scene.session.scopes ∧
      ∀ move, r = .ok move → move.Placed ts scene.session.input := by
  cases inner with
  | none =>
    cases executes : flags.executes with
    | false =>
      simp only [stepBlock, executes, Bool.false_eq_true, if_false] at h
      cases h
      refine ⟨covers, ?_⟩
      rintro _ ⟨⟩
      exact ⟨trivial, trivial, trivial, trail, here, settled⟩
    | true =>
      simp only [stepBlock, executes, if_true] at h
      cases h
      refine ⟨covers.opened, ?_⟩
      rintro _ ⟨⟩
      exact ⟨trivial, trivial, trivial, trail, here, settled⟩
  | some phase =>
    cases phase with
    | stmtDone =>
      cases h
      refine ⟨covers, ?_⟩
      rintro _ ⟨⟩
      exact ⟨trivial, trivial, trivial, trail, here, settled⟩
    | stmtBlockDone => exact leaveBlock_covers .stmtBlockDone h kept deep settled here covers
    | ret => exact leaveBlock_covers .ret h kept deep settled here covers
    | _ =>
      cases h
      exact ⟨covers, by rintro _ ⟨⟩⟩

structure Poised (ts : List Token) (base : List UInt32) (σ : ScopeStack)
    (made : String → String → Prop) (f : Frame) (inner : Option Phase) (s : Session) : Prop where
  starts : inner = none → f.scope? = none
  stands : s.scopes.serials = f.held ++ base
  placed : f.Placed ts
  place : ∃ trail, s.input.Behind ts trail ∧ f.Ready inner trail
  covers : σ.Covers made s.scopes

section Act

variable {f : Frame} {inner : Option Phase} {s : Session} {r : Except Fault Move} {scene : Scene}
  (poised : f.Poised ts base σ made inner s) (deep : σ.depth < base.length)
  (reach : ∀ name value, Assigns ts name → ¬ s.scopes.Hides σ.depth name →
    scene.session.scopes = s.scopes.assign name value → made name value)
include poised deep reach

/-- One step of a frame leaves what lies below alone, but for assignments that reach it. -/
theorem Poised.act_covers (h : f.act inner s = (r, scene)) :
    σ.Covers made scene.session.scopes ∧
      ∀ move, r = .ok move → move.Placed ts scene.session.input := by
  obtain ⟨trail, here, ready⟩ := poised.place
  by_cases isBlock : ∃ scope, f.construct = .block scope
  · have kept := act_over h poised.starts poised.stands
    obtain ⟨flags, construct⟩ := f
    obtain ⟨scope, rfl⟩ := isBlock
    exact stepBlock_covers h kept deep (ready.settled id) here poised.covers
  · have other : ∀ scope, f.construct ≠ .block scope := fun scope h => isBlock ⟨scope, h⟩
    obtain ⟨edited, left⟩ := step_placed poised.placed ready other { session := s } here
    rw [show (f.step inner).on { session := s } = _ from h] at edited left
    refine ⟨poised.covers.edited edited reach, fun move hr => left move scene ?_⟩
    rw [hr]

theorem Poised.act_stay {self : Frame} (h : f.act inner s = (.ok (.stay self), scene)) :
    self.Poised ts base σ made none scene.session := by
  obtain ⟨covers, placed⟩ := Poised.act_covers poised deep reach h
  obtain ⟨stands, none⟩ := act_over h poised.starts poised.stands
  obtain ⟨placed, place⟩ := placed _ rfl
  exact ⟨fun _ => none, by rw [stands, held_eq_nil none, List.nil_append], placed, place, covers⟩

/-- The frame on top is begun over the block that this one holds. -/
theorem Poised.act_push {self child : Frame} (h : f.act inner s = (.ok (.push self child), scene)) :
    child.Poised ts (self.held ++ base) σ made none scene.session.enter ∧ self.Placed ts ∧
      self.Begun := by
  obtain ⟨covers, placed⟩ := Poised.act_covers poised deep reach h
  obtain ⟨stands, none⟩ := act_over h poised.starts poised.stands
  obtain ⟨waits, begun, placed, place⟩ := placed _ rfl
  refine ⟨⟨fun _ => none, ?_, placed, place, covers⟩, waits, begun⟩
  rw [held_eq_nil none, List.nil_append]
  exact stands

end Act

end Frame

namespace Machine

open Token

variable {H : Type} {z : Ask} {host : Host H} {base : List UInt32} {ts : List Token}
  {σ : ScopeStack} {start : Config H z}

/-- The script assigns to the name, and a step of the run makes this assignment while no block
above the depth binds it. -/
def Exposed (host : Host H) (start : Config H z) (ts : List Token) (depth : Nat)
    (name value : String) : Prop :=
  Assigns ts name ∧ ∃ cs c next, Reaches host start cs c ∧ step host c = .inr next ∧
    ¬ c.session.scopes.Hides depth name ∧
    next.session.scopes = c.session.scopes.assign name value

/-- A step of a frame leaves the scopes that the frame leaves. -/
theorem step_scopes {top : Frame} {inner : Option Phase} {s : Session} {state : H} {depth : Nat}
    {below : List Frame} {outer : Waiting H z .phase} {r : Except Fault Move} {scene : Scene}
    (h : top.act inner s = (r, scene)) :
    ∃ next, step host ⟨s, state, .drive depth top below inner outer⟩ = .inr next ∧
      next.session.scopes = scene.session.scopes := by
  rcases r with fault | ⟨self, child⟩ | self | phase | ⟨target, args, saved⟩
  · exact ⟨_, step_fault h, completed_scopes ..⟩
  · by_cases room : scene.session.depth < scene.session.limits.maxDepth
    · exact ⟨_, step_push h room, rfl⟩
    · exact ⟨_, step_limit h (Nat.not_lt.mp room), completed_scopes ..⟩
  · exact ⟨_, step_stay h, rfl⟩
  · exact ⟨_, step_done h, completed_scopes ..⟩
  · exact ⟨_, step_invoke h, rfl⟩

theorem exposed_of_act {top : Frame} {inner : Option Phase} {s : Session} {state : H} {depth : Nat}
    {below : List Frame} {outer : Waiting H z .phase} {r : Except Fault Move} {scene : Scene}
    {prior : List (Invocation H)}
    (reached : Reaches host start prior ⟨s, state, .drive depth top below inner outer⟩)
    (h : top.act inner s = (r, scene)) (name value : String) (assigned : Assigns ts name)
    (free : ¬ s.scopes.Hides σ.depth name)
    (made : scene.session.scopes = s.scopes.assign name value) :
    Exposed host start ts σ.depth name value := by
  obtain ⟨next, goes, scopes⟩ := step_scopes h
  exact ⟨assigned, prior, _, next, reached, goes, free, scopes.trans made⟩

/-- A frame that completes or fails without a call has left what lies below alone, but for
assignments that reach it. -/
theorem Completes.covers {name : String} {out : Except Fault Move × Scene} {state state' : H}
    {r : Except Fault Phase} {s' : Session} {cs : List (Invocation H)}
    (h : Completes host name out state r s' state' cs) (silent : cs = []) {depth : Nat}
    {outer : Waiting H z .phase} (direct : outer.inNative = false)
    {top : Frame} {inner : Option Phase} {s : Session} {below : List Frame}
    {prior : List (Invocation H)} (hname : top.name = name) (hact : top.act inner s = out)
    (reached : Reaches host start prior ⟨s, state, .drive depth top below inner outer⟩)
    (deep : σ.depth < base.length)
    (poised : top.Poised ts base σ (Exposed host start ts σ.depth) inner s) :
    σ.Covers (Exposed host start ts σ.depth) s'.scopes ∧
      ∀ phase, r = .ok phase → s'.input.SettledAt ts := by
  induction h generalizing top inner s below prior base with
  | fault => exact ⟨(poised.act_covers deep (exposed_of_act reached hact) hact).1, by simp⟩
  | done =>
    obtain ⟨covers, placed⟩ := poised.act_covers deep (exposed_of_act reached hact) hact
    exact ⟨covers, fun _ _ => placed _ rfl⟩
  | stay _ ih =>
    have onward := reached.trans (.head (step_stay hact) (.refl _))
    exact ih silent rfl rfl onward deep (poised.act_stay deep (exposed_of_act reached hact) hact)
  | limit => exact ⟨(poised.act_covers deep (exposed_of_act reached hact) hact).1, by simp⟩
  | @pushFault _ scene _ self child _ _ _ _ room _ ih =>
    obtain ⟨child, -, -⟩ := poised.act_push deep (exposed_of_act reached hact) hact
    have onward := reached.trans (.head (step_push hact room) (.refl _))
    have deep : σ.depth < (self.held ++ base).length := by
      rw [List.length_append]
      omega
    exact ⟨(ih silent rfl rfl onward deep child).1, by simp⟩
  | @push _ scene _ self inner phase s₁ _ _ _ _ _ _ room first _ ih₁ ih₂ =>
    obtain ⟨quiet₁, quiet₂⟩ := List.append_eq_nil_iff.mp silent
    obtain ⟨child, waits, begun⟩ := poised.act_push deep (exposed_of_act reached hact) hact
    have onward := reached.trans (.head (step_push hact room) (.refl _))
    have deep₁ : σ.depth < (self.held ++ base).length := by
      rw [List.length_append]
      omega
    obtain ⟨covers, settled⟩ := ih₁ quiet₁ rfl rfl onward deep₁ child
    obtain ⟨trail, here, settled⟩ := settled phase rfl
    have stands := (first.stands (Frame.act_over rfl child.starts child.stands)
      fun call hcall => by simp [quiet₁] at hcall).2 phase rfl
    exact ih₂ quiet₂ rfl rfl (onward.trans (first.reaches rfl rfl depth _ outer direct)) deep
      ⟨by simp, stands, waits, ⟨trail, here, settled, begun⟩, covers⟩
  | invokeFault => cases silent
  | invoke => cases silent

/-! ### Statement after statement -/

section Script

variable {input : Input} {saved : Option Call} {outer : Waiting H z .text} {fin : Finished H z}

theorem statement_covers {n : Nat} {s : Session} {state : H} {prior : List (Invocation H)}
    (direct : outer.inNative = false) (stands : s.scopes.serials = base)
    (deep : σ.depth < base.length) (here : s.input.SettledAt ts)
    (covers : σ.Covers (Exposed host start ts σ.depth) s.scopes)
    (reached : Reaches host start prior (nextStatement base input saved outer s state))
    (h : run host n (nextStatement base input saved outer s state) = some fin)
    (silent : calls host n (nextStatement base input saved outer s state) = []) :
    ∃ r s' state' m past, m ≤ n ∧ σ.Covers (Exposed host start ts σ.depth) s'.scopes ∧
      (∀ phase, r = .ok phase → s'.scopes.serials = base ∧ s'.input.SettledAt ts) ∧
      Reaches host start past
        ⟨s', state', .deliver .phase r (.script input saved base.length outer)⟩ ∧
      run host m ⟨s', state', .deliver .phase r (.script input saved base.length outer)⟩ =
        some fin ∧
      calls host m ⟨s', state', .deliver .phase r (.script input saved base.length outer)⟩ =
        [] := by
  rcases Session.begins_or_refused s .stmt .execute with ⟨room, frame, hstart⟩ | refused
  · obtain rfl : frame = Frame.newStatement .execute := (Except.ok.inj hstart).symm
    simp only [nextStatement, Session.beginParse_start room hstart] at h silent reached
    obtain ⟨r, s', state', cs, m, comp, hm, rest, hcs⟩ := completes_of_run direct h
    obtain ⟨quiet, later⟩ := List.append_eq_nil_iff.mp (hcs.symm.trans silent)
    obtain ⟨trail, here, settled⟩ := here
    have poised : (Frame.newStatement .execute).Poised ts base σ (Exposed host start ts σ.depth)
        none s.enter := ⟨fun _ => rfl, stands, trivial, ⟨trail, here, settled⟩, covers⟩
    obtain ⟨covers, left⟩ := comp.covers quiet direct rfl rfl reached deep poised
    have same := (comp.stands (Frame.begun_over rfl stands)
      fun call hcall => by simp [quiet] at hcall).2
    have onward := reached.trans (comp.reaches rfl rfl s.depth [] _ direct)
    rw [Session.completed_nil] at rest later onward
    refine ⟨_, { s' with depth := s.depth }, _, m, _, Nat.le_of_lt hm, covers, ?_, onward, rest,
      later⟩
    intro phase hr
    cases r with
    | error fault => cases hr
    | ok phase' => exact ⟨same phase' rfl, left phase' rfl⟩
  · obtain ⟨fault, _, hbegin⟩ := Session.beginParse_refused (H := H) (z := z) refused
    simp only [nextStatement, hbegin] at h silent reached
    exact ⟨_, s, _, n, _, Nat.le_refl n, covers, by simp, reached, h, silent⟩

/-- A script that makes no call leaves what lies below alone, but for assignments that reach it. -/
theorem script_covers {n : Nat} {s : Session} {state : H} {prior : List (Invocation H)}
    (direct : outer.inNative = false) (stands : s.scopes.serials = base)
    (deep : σ.depth < base.length) (here : s.input.SettledAt ts)
    (covers : σ.Covers (Exposed host start ts σ.depth) s.scopes)
    (reached : Reaches host start prior (nextStatement base input saved outer s state))
    (h : run host n (nextStatement base input saved outer s state) = some fin)
    (silent : calls host n (nextStatement base input saved outer s state) = []) :
    ∃ answer s' state' m, run host m ⟨s', state', .deliver .text answer outer⟩ = some fin ∧
      σ.Covers (Exposed host start ts σ.depth) s'.scopes := by
  induction n using Nat.strongRecOn generalizing s state prior with
  | ind n ih =>
    obtain ⟨r, s₁, state₁, m, past, hm, covers, left, reached, rest, silent⟩ :=
      statement_covers direct stands deep here covers reached h silent
    obtain ⟨m, rfl⟩ := exists_succ_of_run rest
    have cut := covers.truncate deep
    cases r with
    | error fault => exact ⟨_, _, _, m, rest, cut⟩
    | ok phase =>
      obtain ⟨stands, here⟩ := left phase rfl
      cases phase with
      | stmtDone =>
        have onward := reached.trans (.head rfl (.refl (nextStatement base input saved outer s₁ _)))
        exact ih m (by omega) stands here covers onward rest silent
      | eof => exact ⟨_, _, _, m, rest, covers⟩
      | ret => exact ⟨_, _, _, m, rest, covers⟩
      | _ => exact ⟨_, _, _, m, rest, cut⟩

end Script

end Machine

namespace Session

open Machine Token

variable {H : Type} {host : Host H}

/-- All that an enclosed evaluation leaves behind are assignments. -/
theorem eval_enclosed_after {fuel : Nat} {s : Session} {state : H} {script : String}
    {fin : Finished H .text} (h : s.eval host fuel state true script = some fin)
    (silent : s.evalCalls host fuel state true script = []) :
    ∃ writes : List (String × String),
      (∀ w ∈ writes, Exposed host (s.evalStart host state true script)
        (Input.ofScript script).tokens s.scopes.depth w.1 w.2) ∧
      fin.session.scopes.tables = (s.scopes.after writes).tables := by
  have length := s.scopes.openBlock.2.length_serials
  have here : (Input.ofScript script).SettledAt (Input.ofScript script).tokens :=
    ⟨[], ⟨[], (Input.ahead_eq_tokens rfl).symm, rfl⟩, trivial⟩
  simp only [eval, evalCalls, evalStart, startEval, beginEval, if_true, ← length] at h silent ⊢
  have deep : s.scopes.depth < s.scopes.openBlock.2.serials.length := by
    rw [length, ScopeStack.depth_openBlock]
    omega
  obtain ⟨answer, s', state', m, rest, covers⟩ :=
    script_covers rfl rfl deep here (.openBlock_self s.scopes) (.refl _) h silent
  rcases m with _ | _ | m
  · simp [run] at rest
  · simp [run, step, deliverStep] at rest
  · obtain rfl := Option.some.inj rest
    exact covers.below

/-- A script evaluated in a block of its own is contained: whether it succeeds or fails, the same
blocks are open as before, their tables bind the same names, and no global name is lost. A value in
any of these tables, or what a name means, differs only if the script assigns to the name. All that
is left are assignments that the run made to names no block of the script's own bound at that
moment, and so nothing of any declaration. -/
theorem eval_enclosed_contained (host : Host H) (fuel : Nat) (s : Session) (state : H)
    (script : String) (fin : Finished H .text)
    (ends : s.eval host fuel state true script = some fin)
    (silent : s.evalCalls host fuel state true script = []) :
    let before := s.scopes
    let after := fin.session.scopes
    let ts := (Input.ofScript script).tokens
    List.Forall₂ (fun old new => new.serial = old.serial ∧
        ∀ name, new.bindings.contains name = old.bindings.contains name ∧
          (new.bindings.get? name ≠ old.bindings.get? name → Assigns ts name))
      before.blocks after.blocks ∧
    (∀ name, (before.globals.contains name = true → after.globals.contains name = true) ∧
      (after.globals.get? name ≠ before.globals.get? name → Assigns ts name)) ∧
    (∀ name, fin.session.getVar? name ≠ s.getVar? name → Assigns ts name) ∧
    ∃ writes : List (String × String), after.tables = (before.after writes).tables ∧
      ∀ w ∈ writes, Exposed host (s.evalStart host state true script) ts before.depth w.1 w.2 := by
  intro before after ts
  obtain ⟨writes, exposed, left⟩ := eval_enclosed_after ends silent
  have revised : before.Reassigned (Assigns ts) after :=
    (ScopeStack.Reassigned.after s.scopes writes fun w hw => (exposed w hw).1).of_tables left
  exact ⟨revised.blocks, revised.globals, fun name => revised.get?, writes, left, exposed⟩

theorem eval_enclosed_contained_failing :
    let host : Host Unit := { natives := fun _ _ => .done () }
    let s : Session :=
      { id := ⟨0, 1⟩,
        scopes := { globals := Table.insert {} "y" "0", serial := 7,
                    blocks := [⟨7, Table.insert {} "x" "1"⟩] } }
    let script := "x = 2; \x7b var y = 3; var x = 5; \x7b y = 4; x = 6; missing; \x7d \x7d"
    let ts := (Input.ofScript script).tokens
    ∃ fin, s.eval host 200 () true script = some fin ∧
      (fin.answer.isOk, fin.session.getVar? "x", fin.session.getVar? "y") =
        (false, some "2", some "0") ∧
      List.Forall₂ (fun old new => new.serial = old.serial ∧
          ∀ name, new.bindings.contains name = old.bindings.contains name ∧
            (new.bindings.get? name ≠ old.bindings.get? name → Assigns ts name))
        s.scopes.blocks fin.session.scopes.blocks ∧
      (∀ name, (s.scopes.globals.contains name = true →
          fin.session.scopes.globals.contains name = true) ∧
        (fin.session.scopes.globals.get? name ≠ s.scopes.globals.get? name → Assigns ts name)) := by
  intro host s script ts
  have ends : (s.eval host 200 () true script).map (fun fin =>
      (fin.answer.isOk, fin.session.getVar? "x", fin.session.getVar? "y")) =
        some (false, some "2", some "0") := by
    decide +kernel
  have silent : (s.evalCalls host 200 () true script).length = 0 := by decide +kernel
  obtain ⟨fin, evaluated, left⟩ := Option.map_eq_some_iff.mp ends
  have contained := eval_enclosed_contained host 200 s () script fin evaluated
    (List.length_eq_zero_iff.mp silent)
  exact ⟨fin, evaluated, left, contained.1, contained.2.1⟩

end Session

end Scriptlet
