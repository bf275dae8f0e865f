import Scriptlet.Machine.Statement

/-!
What values fail for. An operator that meets operands it does not take fails for a cause of its
own, and so does closing a block; neither is ever about a malformed token or an unbound variable,
nor about the phase in which a statement has finished, and neither tells of a token.
-/

namespace Scriptlet

/-- A cause that is not about the phase in which a statement of a script has finished. -/
def Fault.Cause.Local (c : Fault.Cause) : Prop := ∀ phase, c ≠ .unexpectedPhase phase

/-- Other causes than a malformed token, an unbound variable and the phase in which a statement of a
script has finished. What the host words itself is not among them. -/
def Fault.Cause.plain : Fault.Cause → Bool
  | .malformed _ | .undefinedVariable _ | .unexpectedPhase _ | .reported _ _ => false
  | _ => true

theorem Fault.Cause.local_of_plain {c : Fault.Cause} (h : c.plain = true) : c.Local := by
  rintro phase rfl
  cases h

theorem Fault.Cause.kind_of_plain {c : Fault.Cause} (h : c.plain = true) : c.kind ≠ .lexical := by
  intro lexical
  cases c <;> simp [plain, kind] at h lexical

def Fault.Cause.found? : Fault.Cause → Option Token
  | .unexpected found | .expected _ found | .expectedName found | .expectedArgumentEnd found =>
    some found
  | _ => none

def FailsPlainly {α : Type} (r : Except Fault.Cause α) : Prop :=
  ∀ c, r = .error c → c.plain = true ∧ c.found? = none

variable {α β : Type}

theorem failsPlainly_ok (a : α) : FailsPlainly (.ok a : Except Fault.Cause α) := by
  intro c h
  cases h

theorem failsPlainly_error {c : Fault.Cause} (h : c.plain = true ∧ c.found? = none) :
    FailsPlainly (.error c : Except Fault.Cause α) := by
  rintro _ ⟨⟩
  exact h

namespace FailsPlainly

theorem map {r : Except Fault.Cause α} (h : FailsPlainly r) (f : α → β) :
    FailsPlainly (r.map f) := by
  cases r with
  | ok a => exact failsPlainly_ok _
  | error c => exact failsPlainly_error (h c rfl)

theorem bind {r : Except Fault.Cause α} {f : α → Except Fault.Cause β}
    (h : FailsPlainly r) (hf : ∀ a, FailsPlainly (f a)) : FailsPlainly (r >>= f) := by
  cases r with
  | ok a => exact hf a
  | error c => exact failsPlainly_error (h c rfl)

theorem ite {p : Prop} [Decidable p] {r r' : Except Fault.Cause α}
    (h : FailsPlainly r) (h' : FailsPlainly r') : FailsPlainly (if p then r else r') := by
  split
  · exact h
  · exact h'

end FailsPlainly

theorem Number.integerOp_fails (op : Operator) (x y : Int64) :
    FailsPlainly (integerOp op x y) := by
  unfold integerOp
  cases op with
  | div =>
    exact .ite (failsPlainly_error ⟨rfl, rfl⟩)
      (.ite (failsPlainly_ok _) (failsPlainly_ok _))
  | mod => exact .ite (failsPlainly_error ⟨rfl, rfl⟩) (failsPlainly_ok _)
  | plus | minus | mul | shiftLeft | shiftRight => exact failsPlainly_ok _
  | _ => exact failsPlainly_error ⟨rfl, rfl⟩

theorem Number.floatOp_fails (op : Operator) (x y : Float) : FailsPlainly (floatOp op x y) := by
  unfold floatOp
  cases op with
  | div | mod => exact .ite (failsPlainly_error ⟨rfl, rfl⟩) (failsPlainly_ok _)
  | plus | minus | mul => exact failsPlainly_ok _
  | _ => exact failsPlainly_error ⟨rfl, rfl⟩

theorem Number.apply_fails (op : Operator) (a b : Number) : FailsPlainly (apply op a b) := by
  unfold apply
  split
  · exact integerOp_fails op _ _
  · split
    · exact integerOp_fails .shiftLeft _ _
    · exact integerOp_fails .shiftRight _ _
    · exact floatOp_fails _ _ _

namespace Value

theorem arithmetic_fails (op : Operator) (l r : String) : FailsPlainly (arithmetic op l r) := by
  unfold arithmetic
  split
  · exact (Number.apply_fails op _ _).map _
  · exact .ite (failsPlainly_ok _) (failsPlainly_error ⟨rfl, rfl⟩)

theorem logical_fails (op : Logical) (l r : String) : FailsPlainly (logical op l r) := by
  cases op with
  | not => exact failsPlainly_error ⟨rfl, rfl⟩
  | _ => exact failsPlainly_ok _

theorem negate_fails (v : String) : FailsPlainly (negate v) := by
  unfold negate
  split
  · exact (Number.apply_fails _ _ _).map _
  · exact failsPlainly_error ⟨rfl, rfl⟩

theorem bump_fails (op : Operator) (v : String) : FailsPlainly (bump op v) := by
  unfold bump
  cases Number.ofText? v with
  | none => cases op <;> exact failsPlainly_error ⟨rfl, rfl⟩
  | some n =>
    cases op with
    | increment => exact (Number.apply_fails _ _ _).map _
    | decrement => exact (Number.apply_fails _ _ _).map _
    | _ => exact failsPlainly_error ⟨rfl, rfl⟩

theorem relate_fails (op : Operator) (l r : String) : FailsPlainly (relate op l r) := by
  cases op with
  | less | lessEq | greater | greaterEq | eq | notEq => exact failsPlainly_ok _
  | _ => exact failsPlainly_error ⟨rfl, rfl⟩

end Value

theorem ScopeStack.close_fails (scopes : ScopeStack) (id : BlockId) :
    FailsPlainly (scopes.close id) := by
  have refusal : (scopes.refusal id).plain = true ∧ (scopes.refusal id).found? = none := by
    unfold refusal
    split <;> exact ⟨rfl, rfl⟩
  unfold close
  split
  · exact .ite (failsPlainly_ok _) (failsPlainly_error refusal)
  · exact failsPlainly_error refusal

theorem Frame.combine_fails (terms : Frame.Terms) (term : String) :
    FailsPlainly (combine terms term) := by
  have unary : ∀ ops value, FailsPlainly (List.foldlM applyUnary value ops) := by
    intro ops
    induction ops with
    | nil => exact fun value => failsPlainly_ok value
    | cons op ops ih =>
      intro value
      rw [List.foldlM_cons]
      refine .bind ?_ ih
      cases op with
      | minus => exact Value.negate_fails value
      | not => exact failsPlainly_ok _
  refine .bind (unary _ _) fun value => ?_
  split
  · exact Value.arithmetic_fails _ _ _
  · exact failsPlainly_ok _

end Scriptlet
