import Scriptlet.Proofs.Completion
import Scriptlet.Proofs.Lexing
import Scriptlet.Proofs.Semantics

/-!
Outcomes of frames, as far as a script can tell: the phase or the cause of failure, the session that
is left, and the calls that were made. The host's own state and the lines of faults are left out.
-/

namespace Scriptlet

variable {H α β : Type}

open Machine

def Machine.Invocation.brief (call : Invocation H) : String × List String := (call.key, call.args)

/-- A host whose functions only compute a result from their arguments. -/
def Host.ofNatives (natives : Natives) (observe : Event → H → H) : Host H where
  natives key args :=
    match natives key args with
    | .ok value => .request (.setResult value) fun _ => .done ()
    | .error fault => .raise fault
  observe := observe

namespace Act

def Gives (x : Act α) (s : Session) (a : α) (s' : Session) : Prop :=
  ∀ journal, ∃ journal', x.on ⟨s, journal⟩ = (.ok a, ⟨s', journal'⟩)

def Fails (x : Act α) (s : Session) (cause : Fault.Cause) (s' : Session) : Prop :=
  ∀ journal, ∃ journal' fault, x.on ⟨s, journal⟩ = (.error fault, ⟨s', journal'⟩) ∧
    fault.cause = cause

variable {s s₁ s₂ : Session} {x : Act α} {f : α → Act β} {a : α} {b : β} {cause : Fault.Cause}

theorem gives_pure (a : α) (s : Session) : (pure a : Act α).Gives s a s :=
  fun journal => ⟨journal, rfl⟩

theorem Gives.bind (h : x.Gives s a s₁) (k : (f a).Gives s₁ b s₂) : (x >>= f).Gives s b s₂ := by
  intro journal
  obtain ⟨journal₁, hx⟩ := h journal
  obtain ⟨journal₂, hf⟩ := k journal₁
  exact ⟨journal₂, by rw [on_bind, hx]; exact hf⟩

theorem Gives.fails_bind (h : x.Gives s a s₁) (k : (f a).Fails s₁ cause s₂) :
    (x >>= f).Fails s cause s₂ := by
  intro journal
  obtain ⟨journal₁, hx⟩ := h journal
  obtain ⟨journal₂, fault, hf, hcause⟩ := k journal₁
  exact ⟨journal₂, fault, by rw [on_bind, hx]; exact hf, hcause⟩

theorem Fails.bind (h : x.Fails s cause s₁) : (x >>= f).Fails s cause s₁ := by
  intro journal
  obtain ⟨journal₁, fault, hx, hcause⟩ := h journal
  exact ⟨journal₁, fault, by rw [on_bind, hx], hcause⟩

theorem fails_fail (cause : Fault.Cause) (s : Session) : (fail cause : Act α).Fails s cause s :=
  fun journal => ⟨journal, { cause }, rfl, rfl⟩

theorem gives_session (s : Session) : session.Gives s s s := fun journal => ⟨journal, rfl⟩

theorem gives_setSession (s s' : Session) : (setSession s').Gives s () s' :=
  fun journal => ⟨journal, rfl⟩

theorem gives_update (f : Session → Session) (s : Session) : (update f).Gives s () (f s) :=
  fun journal => ⟨journal, rfl⟩

theorem gives_emit (e : Event) (s : Session) : (emit e).Gives s () s :=
  fun journal => ⟨e :: journal, rfl⟩

theorem gives_takeResult (s : Session) : takeResult.Gives s s.result { s with result := "" } :=
  fun journal => ⟨journal, rfl⟩

theorem gives_ofExcept {r : Except Fault.Cause α} (h : r = .ok a) (s : Session) :
    (ofExcept r).Gives s a s := by
  subst h
  exact gives_pure a s

theorem fails_ofExcept {r : Except Fault.Cause α} (h : r = .error cause) (s : Session) :
    (ofExcept r).Fails s cause s := by
  subst h
  exact fails_fail cause s

theorem gives_readVariable {name value : String} (h : s.scopes.get? name = some value) :
    (readVariable name).Gives s value s := by
  refine (gives_session s).bind ?_
  simp only [Session.getVar?, h]
  exact gives_pure value s

theorem fails_readVariable {name : String} (h : s.scopes.get? name = none) :
    (readVariable name).Fails s (.undefinedVariable name) s := by
  refine (gives_session s).fails_bind ?_
  simp only [Session.getVar?, h]
  exact fails_fail _ s

theorem gives_nextToken {phase : Phase} {t : Token} {input : Input}
    (h : s.input.next phase = (t, input)) (valid : t.kind ≠ .error) :
    (nextToken phase).Gives s t { s with input, token := t } := by
  intro journal
  have read : (nextToken phase).on ⟨s, journal⟩ = _ := on_nextToken h
  rw [if_neg valid] at read
  exact ⟨_, read⟩

theorem gives_expect {phase : Phase} {kind : Token.Kind} {t : Token} {input : Input}
    (h : s.input.next phase = (t, input)) (same : t.kind = kind) (valid : kind ≠ .error) :
    (expect phase kind).Gives s () { s with input, token := t } := by
  subst same
  refine (gives_nextToken h valid).bind ?_
  rw [if_neg (by simp)]
  exact gives_pure () _

end Act

/-- The frame called `name` that does `x` completes in `r`, leaves `s'` and makes these calls. -/
def Runs (host : Host H) (name : String) (x : Act Move) (s : Session)
    (r : Except Fault.Cause Phase) (s' : Session) (calls : Calls) : Prop :=
  ∀ journal state, ∃ r' state' cs, Completes host name (x.on ⟨s, journal⟩) state r' s' state' cs ∧
    r'.mapError (·.cause) = r ∧ cs.map Invocation.brief = calls

namespace Runs

variable {host : Host H} {name : String} {s s₁ s' : Session} {r : Except Fault.Cause Phase}
  {cause : Fault.Cause} {calls more : Calls}

theorem gives {x : Act α} {f : α → Act Move} {a : α} (h : x.Gives s a s₁)
    (k : Runs host name (f a) s₁ r s' calls) : Runs host name (x >>= f) s r s' calls := by
  intro journal state
  obtain ⟨journal₁, hx⟩ := h journal
  obtain ⟨r', state', cs, comp, hr, hcs⟩ := k journal₁ state
  refine ⟨r', state', cs, ?_, hr, hcs⟩
  rw [Act.on_bind, hx]
  exact comp

/-- Only the move that a frame makes counts, and the session it makes it on. -/
theorem moves {x : Act Move} {move : Move} (h : x.Gives s move s₁)
    (k : Runs host name (pure move) s₁ r s' calls) : Runs host name x s r s' calls := by
  have whole : Runs host name (x >>= pure) s r s' calls := gives h k
  rwa [bind_pure] at whole

theorem fails {x : Act Move} (h : x.Fails s cause s') :
    Runs host name x s (.error cause) s' [] := by
  intro journal state
  obtain ⟨journal', fault, hx, hcause⟩ := h journal
  exact ⟨.error fault, _, [], by rw [hx]; exact .fault, by rw [← hcause]; rfl, rfl⟩

theorem done (phase : Phase) (s : Session) :
    Runs host name (pure (.done phase)) s (.ok phase) s.leave [] :=
  fun _ _ => ⟨.ok phase, _, [], .done, rfl, rfl⟩

theorem stay {self : Frame} (h : Runs host self.name (self.step none) s r s' calls) :
    Runs host name (pure (.stay self)) s r s' calls := by
  intro journal state
  obtain ⟨r', state', cs, comp, hr, hcs⟩ := h [] (host.absorb journal state)
  exact ⟨r', state', cs, .stay comp, hr, hcs⟩

theorem push {self child : Frame} {phase : Phase} (room : s.depth < s.limits.maxDepth)
    (h : Runs host child.name (child.step none) s.enter (.ok phase) s₁ calls)
    (k : Runs host self.name (self.step (some phase)) s₁ r s' more) :
    Runs host name (pure (.push self child)) s r s' (calls ++ more) := by
  intro journal state
  obtain ⟨r₁, state₁, cs, comp₁, hr₁, hcs⟩ :=
    h [] (host.absorb (.push self.name child.name (s.depth + 1) :: journal) state)
  obtain ⟨r', state', ds, comp, hr, hds⟩ := k [] state₁
  cases r₁ with
  | error fault => cases hr₁
  | ok phase' =>
    cases hr₁
    refine ⟨r', state', cs ++ ds, .push room comp₁ comp, hr, ?_⟩
    rw [List.map_append, hcs, hds]

theorem push_fails {self child : Frame} (room : s.depth < s.limits.maxDepth)
    (h : Runs host child.name (child.step none) s.enter (.error cause) s' calls) :
    Runs host name (pure (.push self child)) s (.error cause) s' calls := by
  intro journal state
  obtain ⟨r₁, state₁, cs, comp, hr, hcs⟩ :=
    h [] (host.absorb (.push self.name child.name (s.depth + 1) :: journal) state)
  cases r₁ with
  | ok phase => cases hr
  | error fault => exact ⟨.error fault, state₁, cs, .pushFault room comp, hr, hcs⟩

end Runs

/-! ### Native functions -/

namespace Runs

variable {natives : Natives} {observe : Event → H → H} {name : String} {s : Session}

theorem invoke {target : Callable} {args : List String} {value : String} (saved : Option Call)
    (h : natives target.key args = .ok value) :
    Runs (.ofNatives natives observe) name (pure (.invoke target args saved)) s (.ok .exprDone)
      { s with result := value, call := saved }.leave [(target.key, args)] := by
  intro journal state
  have ends : Ends (.ofNatives natives observe)
      ((Host.ofNatives natives observe).natives target.key args) s
      ((Host.ofNatives natives observe).absorb journal state) (.ok ()) { s with result := value }
      ((Host.ofNatives natives observe).absorb journal state) := by
    refine ⟨3, ?_⟩
    simp only [Host.ofNatives, h]
    rfl
  have comp : Completes (.ofNatives natives observe) name
      (.ok (.invoke target args saved), ⟨s, journal⟩) state _ _ _ _ := .invoke ends
  exact ⟨_, _, _, comp, rfl, rfl⟩

theorem invoke_fails {target : Callable} {args : List String} {fault : Fault}
    (saved : Option Call) (h : natives target.key args = .error fault) :
    Runs (.ofNatives natives observe) name (pure (.invoke target args saved)) s
      (.error fault.cause) { s with call := saved } [(target.key, args)] := by
  intro journal state
  have ends : Ends (.ofNatives natives observe)
      ((Host.ofNatives natives observe).natives target.key args) s
      ((Host.ofNatives natives observe).absorb journal state) (.error fault) s
      ((Host.ofNatives natives observe).absorb journal state) := by
    refine ⟨2, ?_⟩
    simp only [Host.ofNatives, h]
    rfl
  have comp : Completes (.ofNatives natives observe) name
      (.ok (.invoke target args saved), ⟨s, journal⟩) state _ _ _ _ := .invokeFault ends
  exact ⟨_, _, _, comp, rfl, rfl⟩

end Runs

end Scriptlet
