import Scriptlet.Proofs.Reentrancy

/-!
How blocks are numbered in the course of a run. A step opens at most one block, and moves the
counter of serials then and only then; so the counter tells, until it wraps around, how many blocks
have been opened, and every open block has a serial that the counter has passed.
-/

namespace Scriptlet

namespace ScopeStack

variable {before after : ScopeStack}

inductive Turns (before after : ScopeStack) : Prop where
  | closes (serial : after.serial = before.serial) (serials : after.serials <:+ before.serials)
  | opens (serial : after.serial = nextSerial before.serial)
      (serials : after.serials = after.serial :: before.serials)

theorem Turns.of_eq (h : after.numbering = before.numbering) : before.Turns after := by
  obtain ⟨serial, serials⟩ := Prod.mk.inj h
  exact .closes serial (serials ▸ List.suffix_refl _)

theorem turns_refl (scopes : ScopeStack) : scopes.Turns scopes := .of_eq rfl

theorem turns_openBlock (scopes : ScopeStack) : scopes.Turns scopes.openBlock.2 :=
  .opens rfl rfl

theorem turns_truncate (scopes : ScopeStack) (depth : Nat) :
    scopes.Turns (scopes.truncate depth) := by
  refine .closes rfl ?_
  simp only [serials, truncate, List.map_drop]
  exact List.drop_suffix _ _

theorem turns_close {id : BlockId} (h : before.close id = .ok after) : before.Turns after := by
  obtain ⟨top, outer, blocks, _, _, rfl⟩ := close_eq_ok.mp h
  refine .closes rfl ?_
  simp only [serials, blocks, List.map_cons]
  exact List.suffix_cons _ _

def opened (before after : ScopeStack) : Nat := if after.serial = before.serial then 0 else 1

theorem nextSerial_ne (serial : UInt32) : nextSerial serial ≠ serial := by
  intro same
  have value := congrArg UInt32.toNat same
  unfold nextSerial at value
  split at value
  · rename_i wrapped
    have last := congrArg UInt32.toNat wrapped
    rw [UInt32.toNat_add] at last
    simp only [UInt32.toNat_one, UInt32.toNat_zero] at last value
    omega
  · rw [UInt32.toNat_add, UInt32.toNat_one] at value
    have := serial.toNat_lt
    omega

/-- Before it wraps around, the counter counts. -/
theorem Turns.toNat_serial (h : before.Turns after)
    (few : before.serial.toNat + opened before after < 2 ^ 32) :
    after.serial.toNat = before.serial.toNat + opened before after := by
  cases h with
  | closes serial _ => simp [opened, serial]
  | opens serial _ =>
    have one : opened before after = 1 := by
      rw [opened, serial, if_neg (nextSerial_ne before.serial)]
    rw [one] at few ⊢
    rw [serial, toNat_nextSerial few]

def Numbered (scopes : ScopeStack) : Prop :=
  ∀ serial ∈ scopes.serials, serial.toNat ≤ scopes.serial.toNat

theorem Turns.numbered (h : before.Turns after)
    (few : before.serial.toNat + opened before after < 2 ^ 32) (numbered : before.Numbered) :
    after.Numbered := by
  have count := h.toNat_serial few
  intro serial mem
  cases h with
  | closes _ serials =>
    have := numbered serial (serials.mem mem)
    omega
  | opens _ serials =>
    rw [serials] at mem
    rcases List.mem_cons.mp mem with rfl | older
    · exact Nat.le_refl _
    · have := numbered serial older
      omega

/-- `Course n before after`: step by step one stack becomes the other, and `n` blocks are opened. -/
inductive Course : Nat → ScopeStack → ScopeStack → Prop where
  | refl (scopes : ScopeStack) : Course 0 scopes scopes
  | step {n : Nat} {before mid after : ScopeStack} : before.Turns mid → Course n mid after →
      Course (opened before mid + n) before after

theorem Course.of_turns (h : before.Turns after) : Course (opened before after) before after :=
  .step h (.refl after)

/-- A whole course counts the blocks it opens. -/
theorem Course.toNat_serial {n : Nat} (h : Course n before after)
    (few : before.serial.toNat + n < 2 ^ 32) : after.serial.toNat = before.serial.toNat + n := by
  induction h with
  | refl => rfl
  | step turns _ ih =>
    have count := turns.toNat_serial (by omega)
    have total := ih (by omega)
    omega

theorem Course.numbered {n : Nat} (h : Course n before after)
    (few : before.serial.toNat + n < 2 ^ 32) (numbered : before.Numbered) : after.Numbered := by
  induction h with
  | refl => exact numbered
  | step turns _ ih =>
    have count := turns.toNat_serial (by omega)
    exact ih (by omega) (turns.numbered (by omega) numbered)

end ScopeStack

open ScopeStack

/-! ### Frames -/

namespace Frame

open Act

theorem stepBlock_turns (flags : Flags) (scope : Option BlockId) (inner : Option Phase)
    (s : Session) :
    s.scopes.Turns ((stepBlock flags scope inner).on { session := s }).2.session.scopes := by
  have leave : ∀ phase,
      s.scopes.Turns ((leaveBlock scope phase).on { session := s }).2.session.scopes := by
    intro phase
    cases scope with
    | none => exact turns_refl s.scopes
    | some id =>
      cases hclose : s.scopes.close id with
      | error cause =>
        rw [on_leaveBlock_refused hclose]
        exact turns_refl s.scopes
      | ok scopes =>
        rw [on_leaveBlock_closed hclose]
        exact turns_close hclose
  cases inner with
  | none =>
    cases executes : flags.executes with
    | false =>
      simp only [stepBlock, executes, Bool.false_eq_true, if_false]
      exact turns_refl s.scopes
    | true =>
      simp only [stepBlock, executes, if_true]
      exact turns_openBlock s.scopes
  | some phase =>
    cases phase with
    | stmtBlockDone =>
      rw [stepBlock_stmtBlockDone]
      exact leave .stmtBlockDone
    | ret =>
      rw [stepBlock_ret]
      exact leave .ret
    | _ => exact turns_refl s.scopes

theorem act_turns {f : Frame} {inner : Option Phase} {s : Session} {r : Except Fault Move}
    {scene : Scene} (h : f.act inner s = (r, scene)) : s.scopes.Turns scene.session.scopes := by
  by_cases isBlock : ∃ scope, f.construct = .block scope
  · obtain ⟨flags, construct⟩ := f
    obtain ⟨scope, rfl⟩ := isBlock
    have act : (stepBlock flags scope inner).on { session := s } = (r, scene) := h
    have turns := stepBlock_turns flags scope inner s
    rwa [act] at turns
  · exact .of_eq (act_numbering h fun scope h => isBlock ⟨scope, h⟩).1

end Frame

/-! ### Steps and runs -/

namespace Machine

variable {H : Type} {z : Ask} {host : Host H}

theorem beginParse_scopes (s : Session) (start : Phase) (flags : Flags)
    (outer : Waiting H z .phase) : (beginParse s start flags outer).1.scopes = s.scopes := by
  rcases Session.begins_or_refused s start flags with ⟨room, frame, hstart⟩ | refused
  · rw [Session.beginParse_start room hstart outer]
  · obtain ⟨fault, _, hbegin⟩ := Session.beginParse_refused refused
    rw [hbegin outer]

theorem startEval_turns (s : Session) (enclosed : Bool) (script : String)
    (outer : Waiting H z .text) :
    s.scopes.Turns (startEval s enclosed script outer).1.scopes := by
  cases enclosed with
  | false =>
    simp only [startEval, beginEval, Bool.false_eq_true, if_false, beginParse_scopes]
    exact turns_refl s.scopes
  | true =>
    simp only [startEval, beginEval, if_true, beginParse_scopes]
    exact turns_openBlock s.scopes

theorem answer_turns (s : Session) (r : Request) : s.scopes.Turns (s.answer r).2.1.scopes := by
  cases r with
  | openBlock => exact turns_openBlock s.scopes
  | closeBlock id =>
    simp only [Session.answer]
    cases h : s.scopes.close id with
    | error cause => exact turns_refl s.scopes
    | ok scopes => exact turns_close h
  | setVar name value => exact .of_eq (s.scopes.numbering_assign name value)
  | setLocal name value => exact .of_eq (s.scopes.numbering_setLocal name value)
  | setGlobal name value => exact .of_eq rfl
  | _ => exact turns_refl s.scopes

theorem driveStep_turns {s : Session} {state : H} {base : Nat} {top : Frame} {below : List Frame}
    {inner : Option Phase} {outer : Waiting H z .phase} {next : Config H z}
    (st : step host ⟨s, state, .drive base top below inner outer⟩ = .inr next) :
    s.scopes.Turns next.session.scopes := by
  rcases hact : top.act inner s with ⟨fault | move, scene⟩
  · have turns := Frame.act_turns hact
    rw [step_fault hact, Sum.inr.injEq] at st
    rwa [← st, completed_scopes]
  · have turns := Frame.act_turns hact
    cases move with
    | done phase =>
      rw [step_done hact, Sum.inr.injEq] at st
      rwa [← st, completed_scopes]
    | stay self =>
      rw [step_stay hact, Sum.inr.injEq] at st
      rwa [← st]
    | push self child =>
      by_cases room : scene.session.depth < scene.session.limits.maxDepth
      · rw [step_push hact room, Sum.inr.injEq] at st
        rwa [← st]
      · rw [step_limit hact (Nat.not_lt.mp room), Sum.inr.injEq] at st
        rwa [← st, completed_scopes]
    | invoke target args saved =>
      rw [step_invoke hact, Sum.inr.injEq] at st
      rwa [← st]

theorem programStep_turns (s : Session) (state : H) (outer : Waiting H z .unit)
    (p : Program H Unit) : s.scopes.Turns (programStep s state outer p).1.scopes := by
  cases p with
  | request r next => exact answer_turns s r
  | eval enclosed script next => exact startEval_turns s enclosed script (.afterEval next outer)
  | parse start flags next =>
    exact .of_eq (congrArg _ (beginParse_scopes s start flags (.afterParse next outer)))
  | _ => exact turns_refl s.scopes

theorem scriptStep_turns (s : Session) (input : Input) (saved : Option Call) (blocks : Nat)
    (r : Except Fault Phase) (outer : Waiting H z .text) :
    s.scopes.Turns (scriptStep s input saved blocks r outer).1.scopes := by
  have cut := s.scopes.turns_truncate blocks
  cases r with
  | error fault => exact cut
  | ok phase =>
    cases phase with
    | stmtDone =>
      exact .of_eq (congrArg _ (beginParse_scopes s .stmt .execute
        (.script input saved blocks outer)))
    | eof => exact turns_refl s.scopes
    | ret => exact turns_refl s.scopes
    | _ => exact cut

theorem step_turns {c next : Config H z} (st : step host c = .inr next) :
    c.session.scopes.Turns next.session.scopes := by
  obtain ⟨s, state, control⟩ := c
  cases control with
  | drive base top below inner outer => exact driveStep_turns st
  | program p outer =>
    rw [step_program, Sum.inr.injEq] at st
    exact st ▸ programStep_turns s state outer p
  | deliver a answer outer =>
    cases outer with
    | idle => simp [step_deliver, deliverStep] at st
    | call base saved below outer =>
      cases answer with
      | ok u =>
        rw [step_return_ok, Sum.inr.injEq] at st
        rw [← st, completed_scopes]
        exact turns_refl s.scopes
      | error fault =>
        rw [step_return_fault, Sum.inr.injEq] at st
        rw [← st, completed_scopes]
        exact turns_refl s.scopes
    | script input saved blocks outer =>
      obtain rfl := Sum.inr.inj st
      exact scriptStep_turns s input saved blocks answer outer
    | enclosed blocks outer =>
      obtain rfl := Sum.inr.inj st
      exact s.scopes.turns_truncate blocks
    | afterEval next outer =>
      obtain rfl := Sum.inr.inj st
      exact turns_refl s.scopes
    | afterParse next outer =>
      obtain rfl := Sum.inr.inj st
      exact turns_refl s.scopes

def opens (host : Host H) : Nat → Config H z → Nat
  | 0, _ => 0
  | fuel + 1, c =>
    match step host c with
    | .inl _ => 0
    | .inr next => opened c.session.scopes next.session.scopes + opens host fuel next

theorem opens_step {n : Nat} {c next : Config H z} (st : step host c = .inr next) :
    opens host (n + 1) c = opened c.session.scopes next.session.scopes + opens host n next := by
  simp [opens, st]

theorem run_course {n : Nat} {c : Config H z} {fin : Finished H z} (h : run host n c = some fin) :
    Course (opens host n c) c.session.scopes fin.session.scopes := by
  induction n generalizing c with
  | zero => simp [run] at h
  | succ n ih =>
    cases st : step host c with
    | inl fin' =>
      obtain rfl : fin' = fin := by simpa [run, st] using h
      rw [eq_of_finished st]
      exact .refl _
    | inr next =>
      rw [opens_step st]
      exact .step (step_turns st) (ih (run_step st h))

end Machine

namespace Session

open Machine

variable {H : Type} {host : Host H}

theorem eval_eq (fuel : Nat) (s : Session) (state : H) (enclosed : Bool) (script : String) :
    s.eval host fuel state enclosed script =
      run host fuel (resume host state (startEval s enclosed script .idle)) := rfl

def evalOpens (host : Host H) (fuel : Nat) (s : Session) (state : H) (enclosed : Bool)
    (script : String) : Nat :=
  let begun : Session × List Event × Control H .text := startEval s enclosed script .idle
  opened s.scopes begun.1.scopes + opens host fuel (resume host state begun)

theorem eval_course {fuel : Nat} {s : Session} {state : H} {enclosed : Bool} {script : String}
    {fin : Finished H .text} (h : s.eval host fuel state enclosed script = some fin) :
    Course (s.evalOpens host fuel state enclosed script) s.scopes fin.session.scopes := by
  rw [eval_eq] at h
  exact .step (startEval_turns s enclosed script .idle) (run_course h)

end Session

end Scriptlet
