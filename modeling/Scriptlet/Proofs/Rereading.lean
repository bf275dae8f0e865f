import Scriptlet.Proofs.Carrying
import Scriptlet.Proofs.Halting
import Scriptlet.Proofs.ScanAgreement

/-!
Reading again. A loop goes back to the clauses of its header, and what stood behind a clause the
first time is not looked for again. It is still there: whatever a clause is read for, it is read to
the same place, and the first time there was a token behind it.
-/

namespace Scriptlet

namespace Act

variable {α β : Type}

def Ensures (x : Act α) (Q : α → Input → Prop) : Prop :=
  ∀ scene a last, x.on scene = (.ok a, last) → Q a last.session.input

namespace Ensures

variable {Q : β → Input → Prop}

theorem pure {Q : α → Input → Prop} {a : α} (h : ∀ i, Q a i) : (pure a : Act α).Ensures Q := by
  rintro scene _ _ ⟨⟩
  exact h _

theorem fail {Q : α → Input → Prop} (cause : Fault.Cause) : (fail cause : Act α).Ensures Q := by
  rintro scene _ _ ⟨⟩

theorem bind {x : Act α} {f : α → Act β} (hf : ∀ a, (f a).Ensures Q) : (x >>= f).Ensures Q := by
  intro scene b last h
  rw [on_bind] at h
  rcases first : x.on scene with ⟨fault | a, mid⟩
  · rw [first] at h
    cases h
  · rw [first] at h
    exact hf a mid b last h

theorem ite {p : Prop} [Decidable p] {x y : Act β} (hx : x.Ensures Q) (hy : y.Ensures Q) :
    (if p then x else y).Ensures Q := by
  split
  · exact hx
  · exact hy

end Ensures

end Act

/-! ### At the end of the script -/

namespace Frame

open Act

theorem calm_of_exit {f : Frame} (h : f.exit ≠ .between) : f.Calm false := by
  obtain ⟨flags, construct⟩ := f
  refine ⟨fun _ => rfl, ?_⟩
  cases construct with
  | loop l => exact absurd rfl h
  | _ => trivial

theorem not_mayEnd_of_exit {f : Frame} (h : f.exit ≠ .between) : ¬ f.MayEnd := by
  intro may
  exact h (by simp [exit, MayEnd.eq_1 f ▸ may])

theorem exit_eq_inside {f : Frame} : f.exit = .inside ↔ f.site = .inside := by
  obtain ⟨flags, construct⟩ := f
  cases construct with
  | statement stage =>
    cases stage with
    | start => simp [exit, site]
    | forward terminated => cases terminated <;> simp [exit, site]
  | _ => exact Iff.rfl

theorem stepCall_opens {flags : Flags} {name : String} (executes : flags.executes = true) :
    (stepCall flags name .opening).Ensures fun move _ => ∃ target,
      move = .push ⟨flags, .call name (.invoking (some target))⟩ ⟨flags, .arguments⟩ := by
  simp only [stepCall, executes, if_true]
  refine .bind fun _ => .bind fun s => ?_
  split
  · exact .bind fun _ => .pure fun _ => ⟨_, rfl⟩
  · exact .fail _

/-- Where another token is wanted, the end of the script is a fault. -/
theorem step_insists {f : Frame} (insists : f.insists = true) (phase : Phase) :
    Spends false 0 (f.step (some phase)) fun _ _ => False := by
  obtain ⟨flags, construct⟩ := f
  have expected : ∀ {phase kind} {k : Unit → Act Move}, kind ≠ .eof →
      Spends false 0 (expect phase kind >>= k) fun _ _ => False :=
    fun proper => .expect_bind proper fun m le => absurd le (by omega)
  cases construct with
  | expr nl terms =>
    obtain ⟨stage, left, unary⟩ := terms
    cases stage with
    | afterParen => exact expected (by simp)
    | _ => cases insists
  | branch stage =>
    cases stage with
    | afterCondition => exact .session_bind fun s _ => expected (by simp)
    | _ => cases insists
  | loop l =>
    obtain ⟨stage, running, conditionAt, incrementAt, bodyAt, endAt⟩ := l
    cases stage with
    | afterInit => exact expected (by simp)
    | afterCondition => exact .session_bind fun s _ => expected (by simp)
    | afterIncrementScan => exact expected (by simp)
    | _ => cases insists
  | arguments =>
    have next : Spends false 0 (afterArgument flags) fun _ _ => False := by
      refine .next_bind fun t m _ le => ?_
      have ends : t.kind = .eof := by
        refine Decidable.byContradiction fun more => ?_
        rw [Token.cost_of_ne more] at le
        omega
      simp only [ends]
      exact .fail _
    refine .ite (.keep_bind ?_ fun _ => next) next
    exact .bind (.takeResult fun _ _ => rfl) fun _ => .update fun _ => rfl
  | _ => cases insists

end Frame

theorem Input.within_zero {i : Input} : i.Within false 0 ↔ i.ahead = [] := by
  constructor
  · exact fun h => List.length_eq_zero_iff.mp (Nat.le_zero.mp h.bounded)
  · intro h
    exact ⟨by simp [h], by simp [h]⟩

namespace Machine

variable {H : Type} {host : Host H} {name : String} {out : Except Fault Move × Scene}
  {state state' : H} {r : Except Fault Phase} {s' : Session} {cs : List (Invocation H)}

/-- What a frame that calls nothing leaves when it completes. -/
theorem Completes.left (h : Completes host name out state r s' state' cs) {loops : Bool}
    {f : Frame} {inner : Option Phase} {s : Session} {n : Nat} (hout : f.act inner s = out)
    (silent : cs = []) (calm : f.Calm loops) (within : s.input.Within loops n) :
    Left loops f n r s' := by
  induction h generalizing f inner s n with
  | fault => rintro _ ⟨⟩
  | limit => rintro _ ⟨⟩
  | pushFault => rintro _ ⟨⟩
  | invokeFault => rintro _ ⟨⟩
  | invoke => cases silent
  | done =>
    obtain ⟨m, inside, spent⟩ := Frame.step_spends calm inner n _ within _ _ hout
    rintro _ ⟨⟩
    exact ⟨m, inside, spent⟩
  | stay _ ih =>
    obtain ⟨m, inside, calm', ends, -, paid⟩ := Frame.step_spends calm inner n _ within _ _ hout
    intro phase ok
    obtain ⟨k, inside, bound⟩ := ih rfl silent calm' inside phase ok
    refine ⟨k, inside, ?_⟩
    split at bound
    · rw [if_pos ‹_›]
      exact ends bound
    · rw [if_neg ‹_›]
      simp only [Frame.means] at paid
      omega
  | @push _ scene _ self child inside s₁ _ _ _ _ _ _ _ _ comp₂ ih₁ ih₂ =>
    obtain ⟨m, within', calm', calmChild, begun, more, -, -, paid⟩ :=
      Frame.step_spends calm inner n _ within _ _ hout
    obtain ⟨silent₁, silent₂⟩ := List.append_eq_nil_iff.mp silent
    obtain ⟨k, within₁, bound⟩ := ih₁ rfl silent₁ calmChild within' inside rfl
    simp only [Frame.means] at paid
    intro phase ok
    by_cases ended : inside = .eof
    · subst ended
      rw [if_pos rfl] at bound
      obtain ⟨fault, scene', refused⟩ := more bound s₁
      rw [refused, ok] at comp₂
      cases comp₂
    · rw [if_neg ended] at bound
      obtain ⟨j, within₂, bound₂⟩ := ih₂ rfl silent₂ calm' within₁ phase ok
      refine ⟨j, within₂, ?_⟩
      split at bound₂
      · exact absurd bound₂ begun
      · rw [if_neg ‹_›]
        omega

/-- From the end of the script a frame in an expression can complete only if no token is due, and
comes no further. -/
theorem Completes.exhausted {f : Frame} {inner : Option Phase} {s : Session} {phase : Phase}
    (h : Completes host name (f.act inner s) state (.ok phase) s' state' [])
    (other : f.exit ≠ .between) (ends : s.input.ahead = []) :
    f.due = 0 ∧ s'.input.ahead = [] := by
  obtain ⟨m, within, bound⟩ :=
    h.left rfl rfl (Frame.calm_of_exit other) (Input.within_zero.mpr ends) phase rfl
  split at bound
  · exact absurd bound (Frame.not_mayEnd_of_exit other)
  · obtain ⟨rfl, due⟩ : m = 0 ∧ f.due = 0 := by omega
    exact ⟨due, Input.within_zero.mp within⟩

theorem Completes.insisted {f : Frame} {s : Session} {phase phase' : Phase}
    (h : Completes host name (f.act (some phase) s) state (.ok phase') s' state' cs)
    (insists : f.insists = true) : s.input.ahead ≠ [] := by
  intro ends
  rcases hact : f.act (some phase) s with ⟨fault | move, scene⟩
  · rw [hact] at h
    cases h
  · obtain ⟨_, _, no⟩ :=
      Frame.step_insists insists phase _ (Input.within_zero.mpr ends) move scene hact
    exact no

/-- A call that is executed is made. -/
theorem Completes.called {flags : Flags} {target : String} {s : Session} {phase : Phase}
    (executes : flags.executes = true)
    (h : Completes host name ((⟨flags, .call target .opening⟩ : Frame).act none s) state
      (.ok phase) s' state' cs) : cs ≠ [] := by
  rcases hact : (⟨flags, .call target .opening⟩ : Frame).act none s with ⟨fault | move, scene⟩
  · rw [hact] at h
    cases h
  · obtain ⟨known, rfl⟩ := Frame.stepCall_opens executes _ _ _ hact
    rw [hact] at h
    cases h with
    | push _ _ comp =>
      cases comp
      simp

/-! ### Clauses -/

/-- A frame that completes in the same way stops at the same place. -/
theorem Completes.input_eq {f : Frame} {inner : Option Phase} {s s₁ s₂ : Session}
    {phase₁ phase₂ : Phase} {state₁ state₂ : H} {cs₁ cs₂ : List (Invocation H)}
    (h₁ : Completes host f.name (f.act inner s) state (.ok phase₁) s₁ state₁ cs₁)
    (h₂ : Completes host f.name (f.act inner s) state (.ok phase₂) s₂ state₂ cs₂) :
    s₁.input = s₂.input := by
  have ends : ∀ {phase s₀ state₀ cs},
      Completes host f.name (f.act inner s) state (.ok phase) s₀ state₀ cs →
      ∃ n, run host n ⟨s, state, .drive 0 f [] inner .idle⟩ =
        some (⟨.ok phase, { s₀ with depth := 0 }, state₀⟩ : Finished H .phase) := by
    intro phase s₀ state₀ cs h
    obtain ⟨n, same⟩ := (h.reaches rfl rfl 0 [] .idle rfl).run_eq
    exact ⟨n + 1, (same 1).1⟩
  obtain ⟨n₁, ends₁⟩ := ends h₁
  obtain ⟨n₂, ends₂⟩ := ends h₂
  have later₁ := (run_mono ends₁ (Nat.le_add_right n₁ n₂)).1
  have later₂ := (run_mono ends₂ (Nat.le_add_left n₂ n₁)).1
  have same := Option.some.inj (later₁.symm.trans later₂)
  exact congrArg (fun fin => fin.session.input) same

end Machine

def Input.pulled (i : Input) (phase : Phase) : Input := (i.next phase).2.unread (i.next phase).1

theorem Input.next_pulled (i : Input) (phase : Phase) :
    (i.pulled phase).next phase = i.next phase := by
  have fresh := i.putback_next phase
  rw [pulled, next_unread]
  rcases read : i.next phase with ⟨t, rest, position, putback⟩
  rw [read] at fresh
  obtain rfl : putback = none := fresh
  rfl

theorem Act.on_next_pulled {α : Type} {phase : Phase} (k : Token → Act α) (s : Session)
    (i : Input) :
    (nextToken phase >>= k).on { session := { s with input := i.pulled phase } } =
      (nextToken phase >>= k).on { session := { s with input := i } } := by
  have same : (nextToken phase).on { session := { s with input := i.pulled phase } } =
      (nextToken phase).on { session := { s with input := i } } := by
    rw [on_nextToken (i.next_pulled phase), on_nextToken rfl]
    rfl
  rw [on_bind, on_bind, same]

namespace Frame

theorem newExpr_pulled (flags : Flags) (nl : Bool) (s : Session) (i : Input) :
    (newExpr flags nl none).act none { s with input := i.pulled .expr } =
      (newExpr flags nl none).act none { s with input := i } :=
  Act.on_next_pulled _ s i

theorem newSimple_pulled (flags : Flags) (nl : Bool) (s : Session) (i : Input) :
    (newSimple flags nl).act none { s with input := i.pulled .expr } =
      (newSimple flags nl).act none { s with input := i } :=
  Act.on_next_pulled _ s i

abbrev conditionScan : Frame := newCond .none false none

abbrev incrementScan : Frame := newSimple .none false

/-- What a loop notes when it has another frame read from `i` on: where that is a clause of its
header, it is at a checkpoint. -/
structure Loop.Notes (conditionAt incrementAt : Option Input) (l : Loop) (inner : Frame)
    (i : Input) : Prop where
  condition : ∀ p, l.conditionAt = some p →
    conditionAt = some p ∨ (∃ flags, inner = newCond flags false none) ∧ i = p.pulled .expr
  increment : ∀ p, l.incrementAt = some p →
    incrementAt = some p ∨ (∃ flags, inner = newSimple flags false) ∧ i = p.pulled .expr
  backToCondition : l.stage = .afterLoopCondition →
    (∃ flags, inner = newCond flags false none) ∧ conditionAt = some i
  backToIncrement : l.stage = .afterIncrement →
    (∃ flags, inner = newSimple flags false) ∧ incrementAt = some i

def Loop.Noted (flags : Flags) (l : Loop) (move : Move) (i : Input) : Prop :=
  ∀ self inner, move = .push self inner →
    ∃ l', self = ⟨flags, .loop l'⟩ ∧ Notes l.conditionAt l.incrementAt l' inner i

open Act

section Notes

variable {flags : Flags} {l : Loop}

/-- A frame that is no clause is read from anywhere. -/
theorem Loop.Noted.push {inner : Frame} {l' : Loop} (condition : l'.conditionAt = l.conditionAt)
    (increment : l'.incrementAt = l.incrementAt)
    (forward : l'.stage ≠ .afterLoopCondition ∧ l'.stage ≠ .afterIncrement) (i : Input) :
    l.Noted flags (.push ⟨flags, .loop l'⟩ inner) i := by
  rintro _ _ ⟨⟩
  refine ⟨l', rfl, ?_, ?_, fun stage => absurd stage forward.1, fun stage => absurd stage forward.2⟩
  · exact fun p h => .inl (condition ▸ h)
  · exact fun p h => .inl (increment ▸ h)

theorem startBody_notes : (startBody flags l).Ensures (l.Noted flags) :=
  .bind fun _ => .pure (.push rfl rfl (by simp))

/-- A checkpoint is where the token that was put back had been read from. -/
theorem checkpoint_ensures {kind : Token.Kind} {x : Act Move} {m : Input → Move}
    {Q : Move → Input → Prop} (hx : x.Ensures Q) (hm : ∀ i, Q (m i) (i.pulled .expr)) :
    Ensures (do
      let checkpoint := (← session).input
      let t ← nextToken .expr
      if t.kind = kind then x
      else
        unread t
        return m checkpoint) Q := by
  intro scene move last h
  rw [on_bind, on_session] at h
  dsimp only at h
  rw [on_bind] at h
  rcases first : (nextToken .expr).on scene with ⟨fault | t, mid⟩
  · rw [first] at h
    cases h
  · rw [first] at h
    obtain ⟨input, read, -, rfl⟩ := nextToken_ok first
    dsimp only at h
    split at h
    · exact hx _ _ _ h
    · cases h
      have same : scene.session.input.pulled .expr = input.unread t := by rw [Input.pulled, read]
      have holds := hm scene.session.input
      rw [same] at holds
      exact holds

theorem startIncrement_notes : (startIncrement flags l).Ensures (l.Noted flags) := by
  refine checkpoint_ensures (m := fun i => .push
    ⟨flags, .loop { l with incrementAt := some i, stage := .afterIncrementScan }⟩
    (newSimple flags.scan false)) startBody_notes fun i => ?_
  rintro _ _ ⟨⟩
  refine ⟨_, rfl, fun p h => .inl h, ?_, nofun, nofun⟩
  rintro _ ⟨⟩
  exact .inr ⟨⟨_, rfl⟩, rfl⟩

theorem startCondition_notes : (startCondition flags l).Ensures (l.Noted flags) := by
  refine checkpoint_ensures (m := fun i => .push
    ⟨flags, .loop { l with conditionAt := some i, stage := .afterCondition }⟩
    (newCond flags false none)) (startIncrement_notes (l := { l with running := flags.executes }))
    fun i => ?_
  rintro _ _ ⟨⟩
  refine ⟨_, rfl, ?_, fun p h => .inl h, nofun, nofun⟩
  rintro _ ⟨⟩
  exact .inr ⟨⟨_, rfl⟩, rfl⟩

/-- What a loop goes back to is read from there. -/
theorem resume_ensures {place : Option Input} {m : Move} {Q : Move → Input → Prop}
    (found : place.isSome = true) (h : ∀ i, place = some i → Q m i) :
    (resume place >>= fun _ => pure m).Ensures Q := by
  obtain ⟨i, rfl⟩ := Option.isSome_iff_exists.mp found
  rintro scene _ _ ⟨⟩
  exact h i rfl

theorem repeatBody_notes : (repeatBody flags l).Ensures (l.Noted flags) :=
  .bind fun _ => .pure (.push rfl rfl (by simp))

theorem checkCondition_notes : (checkCondition flags l).Ensures (l.Noted flags) := by
  unfold checkCondition
  split
  · refine resume_ensures ‹_› fun i at' => ?_
    rintro _ _ ⟨⟩
    exact ⟨_, rfl, fun p h => .inl h, fun p h => .inl h, fun _ => ⟨⟨_, rfl⟩, at'⟩, nofun⟩
  · exact repeatBody_notes

theorem leaveLoop_notes (l' : Loop) : (leaveLoop l').Ensures (l.Noted flags) :=
  .bind fun _ => .pure fun _ => by rintro _ _ ⟨⟩

theorem afterBody_notes : (afterBody flags l).Ensures (l.Noted flags) := by
  refine .bind fun s => .ite (leaveLoop_notes _) ?_
  dsimp only
  split
  · refine resume_ensures ‹_› fun i at' => ?_
    rintro _ _ ⟨⟩
    exact ⟨_, rfl, fun p h => .inl h, fun p h => .inl h, nofun, fun _ => ⟨⟨_, rfl⟩, at'⟩⟩
  · exact checkCondition_notes (l := { l with endAt := l.endAt.or (some s.input) })

theorem stepLoop_notes (inner : Option Phase) :
    (stepLoop flags l inner).Ensures (l.Noted flags) := by
  unfold stepLoop
  split
  · refine .bind fun _ => .bind fun t => ?_
    split
    · exact startCondition_notes
    · exact .pure (.push rfl rfl (by simp))
    · exact .bind fun _ => .pure (.push rfl rfl (by simp))
  · exact .bind fun _ => startCondition_notes
  · refine .bind fun s => .bind fun _ => ?_
    exact startIncrement_notes
      (l := { l with running := flags.executes && Value.truthy s.result })
  · exact .bind fun _ => startBody_notes
  · refine .bind fun returns => .ite ?_ afterBody_notes
    exact .pure fun _ => by rintro _ _ ⟨⟩
  · exact checkCondition_notes
  · exact .bind fun s =>
      .ite (repeatBody_notes (l := { l with running := true })) (leaveLoop_notes l)

end Notes

end Frame

namespace Machine

variable {H : Type} {host : Host H} {name : String} {state state' : H} {r : Except Fault Phase}
  {s s' : Session} {phase : Phase} {cs : List (Invocation H)} {clause : Frame}

/-- Both clauses of a header read their first token alike. -/
theorem Completes.reread {i : Input}
    (h : Completes host clause.name (clause.act none { s with input := i.pulled .expr }) state
      (.ok phase) s' state' cs)
    (isClause : clause = .conditionScan ∨ clause = .incrementScan) :
    Completes host clause.name (clause.act none { s with input := i }) state (.ok phase) s' state'
      cs := by
  rcases isClause with rfl | rfl
  · cases h with
    | push room comp₁ comp₂ =>
      refine .push room ?_ comp₂
      cases comp₁ with
      | push room comp₁ comp₂ =>
        refine .push room ?_ comp₂
        have same := Frame.newExpr_pulled .none false s.enter.enter i
        exact (congrArg (fun out => Completes host _ out _ (.ok _) _ _ _) same).mp comp₁
  · rwa [Frame.newSimple_pulled] at h

/-- A scan of the clause from where the session stands ends in front of some token. -/
def Fenced (host : Host H) (clause : Frame) (s : Session) : Prop :=
  ∃ t t' state state' phase, s.Abreast t ∧
    Completes host clause.name (clause.act none t) state (.ok phase) t' state' [] ∧
    t'.input.ahead ≠ []

namespace Fenced

theorem mono {s₁ s₂ : Session} (h : Fenced host clause s₁) (abreast : s₁.Abreast s₂) :
    Fenced host clause s₂ := by
  obtain ⟨t, t', state, state', phase, even, comp, ahead⟩ := h
  exact ⟨t, t', state, state', phase, abreast.symm.trans even, comp, ahead⟩

theorem reread {i : Input} (h : Fenced host clause { s with input := i.pulled .expr })
    (isClause : clause = .conditionScan ∨ clause = .incrementScan) :
    Fenced host clause { s with input := i } := by
  obtain ⟨t, t', state, state', phase, even, comp, ahead⟩ := h
  refine ⟨{ t with input := i }, t', state, state', phase, ?_, ?_, ahead⟩
  · exact ⟨rfl, even.depth, even.limits⟩
  · refine Completes.reread ?_ isClause
    have same : t.input = i.pulled .expr := even.input
    rwa [← same]

variable {f : Frame} (h : Completes host f.name (f.act none s) state (.ok phase) s' state' [])
  (first : f.FirstPass) (plain : f.mayReturn = false)
include h first plain

/-- What a clause is read for makes no difference. -/
theorem of_completes (ahead : s'.input.ahead ≠ []) : Fenced host f.shadow s := by
  cases h.shadow rfl first (by simp) (by simp) (.refl s) state with
  | returned _ returns =>
    rw [plain] at returns
    cases returns
  | @follows t' stateT _ comp even =>
    rw [← Frame.name_shadow] at comp
    exact ⟨s, t', state, stateT, phase, .refl s, comp, by rwa [even.input]⟩

theorem ahead (fenced : Fenced host f.shadow s) : s'.input.ahead ≠ [] := by
  obtain ⟨t, t₁, stateT, state₁, phase₁, even, comp₁, ahead⟩ := fenced
  cases h.shadow rfl first (by simp) (by simp) even stateT with
  | returned _ returns =>
    rw [plain] at returns
    cases returns
  | follows _ comp₂ even' =>
    rw [← Frame.name_shadow] at comp₂
    rwa [← even'.input, comp₂.input_eq comp₁]

end Fenced

def Poised (host : Host H) (f : Frame) (s : Session) : Prop :=
  ∀ l, f.construct = .loop l →
    (∀ i, l.conditionAt = some i → Fenced host .conditionScan { s.enter with input := i }) ∧
      ∀ i, l.incrementAt = some i → Fenced host .incrementScan { s.enter with input := i }

theorem poised_of_plain {f : Frame} (plain : f.isLoop = false) : Poised host f s := by
  intro l construct
  rw [Frame.isLoop, construct] at plain
  cases plain

theorem poised_of_fresh {f : Frame} (fresh : f.Fresh) : Poised host f s := by
  rcases fresh with plain | begun
  · exact poised_of_plain plain
  · intro l construct
    cases begun.symm.trans construct
    exact ⟨nofun, nofun⟩

section Loop

variable {flags : Flags} {l l' : Frame.Loop} {child : Frame} {inner : Option Phase} {scene : Scene}
  (hact : (⟨flags, .loop l⟩ : Frame).act inner s = (.ok (.push ⟨flags, .loop l'⟩ child), scene))
include hact

theorem loop_notes :
    Frame.Loop.Notes l.conditionAt l.incrementAt l' child scene.session.input := by
  obtain ⟨m, same, notes⟩ := Frame.stepLoop_notes inner _ _ _ hact _ _ rfl
  obtain ⟨-, same⟩ := Frame.mk.inj same
  obtain rfl := Frame.Construct.loop.inj same
  exact notes

variable (poised : Poised host ⟨flags, .loop l⟩ s)
  (comp : Completes host child.name (child.act none scene.session.enter) state (.ok phase) s' state'
    [])
include poised comp

/-- A clause that the loop goes back to stops where it stopped. -/
theorem Poised.replayed (replays : (⟨flags, .loop l'⟩ : Frame).replays = true) :
    s'.input.ahead ≠ [] := by
  have notes := loop_notes hact
  obtain ⟨depth, limits⟩ := (⟨flags, .loop l⟩ : Frame).act_depth inner s
  rw [hact] at depth limits
  have even : { s.enter with input := scene.session.input }.Abreast scene.session.enter :=
    ⟨rfl, congrArg (· + 1) depth, limits⟩
  obtain ⟨condition, increment⟩ := poised l rfl
  simp only [Frame.replays, Bool.decide_or, Bool.or_eq_true, decide_eq_true_eq] at replays
  rcases replays with stage | stage
  · obtain ⟨⟨flags', rfl⟩, place⟩ := notes.backToIncrement stage
    exact Fenced.ahead comp trivial rfl ((increment _ place).mono even)
  · obtain ⟨⟨flags', rfl⟩, place⟩ := notes.backToCondition stage
    exact Fenced.ahead comp trivial rfl ((condition _ place).mono even)

/-- A clause that has been read to a token behind it is fenced from then on. -/
theorem Poised.pushed (ahead : child.exit = .inside → s'.input.ahead ≠ []) :
    Poised host ⟨flags, .loop l'⟩ s' := by
  have notes := loop_notes hact
  obtain ⟨depth, limits⟩ := (⟨flags, .loop l⟩ : Frame).act_depth inner s
  rw [hact] at depth limits
  obtain ⟨depth₁, limits₁⟩ := child.act_depth none scene.session.enter
  obtain ⟨depth', limits'⟩ := comp.depth
  rw [depth₁] at depth'
  rw [limits₁] at limits'
  have even : ∀ i, { scene.session.enter with input := i }.Abreast { s'.enter with input := i } :=
    fun i => ⟨rfl, congrArg (· + 1) depth', limits'⟩
  have kept : ∀ i, { s.enter with input := i }.Abreast { s'.enter with input := i } := by
    intro i
    refine Session.Abreast.trans ?_ (even i)
    exact ⟨rfl, congrArg (· + 1) depth, limits⟩
  have marked : ∀ {i clause}, clause = .conditionScan ∨ clause = .incrementScan →
      scene.session.input = i.pulled .expr → Fenced host clause scene.session.enter →
      Fenced host clause { s'.enter with input := i } := by
    intro i clause isClause place fenced
    refine (Fenced.reread (s := scene.session.enter) ?_ isClause).mono (even i)
    rwa [← place]
  obtain ⟨condition, increment⟩ := poised l rfl
  rintro m ⟨⟩
  refine ⟨fun i set => ?_, fun i set => ?_⟩
  · rcases notes.condition i set with before | ⟨⟨flags', rfl⟩, place⟩
    · exact (condition i before).mono (kept i)
    · exact marked (.inl rfl) place (.of_completes comp trivial rfl (ahead rfl))
  · rcases notes.increment i set with before | ⟨⟨flags', rfl⟩, place⟩
    · exact (increment i before).mono (kept i)
    · exact marked (.inr rfl) place (.of_completes comp trivial rfl (ahead rfl))

end Loop

end Machine

end Scriptlet
