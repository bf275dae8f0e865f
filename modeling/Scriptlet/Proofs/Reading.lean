import Mathlib.Data.List.DropRight
import Scriptlet.Proofs.Whereabouts

/-!
Reading a script token after token. What has been read and what is left always make up the script,
every token takes some of it, and the end is found only where nothing is left. In which phases the
tokens are read decides about newlines alone: the other tokens are the same, and they leave the
reader in the same places.
-/

namespace Scriptlet

/-- Behind some octets a reader has taken those of the last line. -/
theorem Position.taken_pass (read : List UInt8) :
    (Position.pass {} read).taken.reverse = read.rtakeWhile (· ≠ 10) := by
  induction read using List.reverseRecOn with
  | nil => rfl
  | append_singleton read b ih =>
    rw [pass_append, pass_cons]
    by_cases newline : b = 10
    · subst newline
      rw [List.rtakeWhile_concat_neg _ _ _ (by decide)]
      rfl
    · rw [List.rtakeWhile_concat_pos _ _ _ (by simpa using newline), ← ih]
      simp [pass, advance, newline]

namespace Lexer

variable {t : Token} {body rest : List UInt8}

/-- A token other than the end takes octets. -/
theorem rest_lt_of_next {newlines : Bool} {skip : Nat} {p q : Position} {bs : List UInt8}
    (h : next newlines skip p bs = (t, q, rest)) (more : t.kind ≠ .eof) :
    rest.length < bs.length := by
  induction bs generalizing skip p with
  | nil =>
    cases skip <;>
    · cases h
      exact absurd rfl more
  | cons b bs ih =>
    rw [List.length_cons]
    cases skip with
    | succ skip => exact Nat.lt_succ_of_lt (ih h)
    | zero =>
      rw [next] at h
      split at h
      · exact Nat.lt_succ_of_lt (ih h)
      · split at h
        · cases h
          exact Nat.lt_succ_self _
        · exact Nat.lt_succ_of_lt (ih h)
      · cases h
        rw [List.length_drop]
        omega

/-- The end of a script stands where nothing is left. -/
theorem Spells.rest_eq_nil (h : Spells t body rest) (ends : t.kind = .eof) : rest = [] := by
  cases h with
  | eof => rfl
  | newline => cases ends
  | @token _ b bs width hp =>
    have plain := piece_plain b bs
    rw [hp] at plain
    exact absurd ends plain.2

end Lexer

namespace Input

variable {script : List UInt8} {i j : Input} {t : Token} {phase : Phase}

/-! ### What reading takes -/

/-- The reader of a script has consumed these octets of it: its line is told by the newlines among
them, and what it has taken of that line is what stands behind the last one. -/
structure Consumed (script consumed : List UInt8) (i : Input) : Prop where
  split : script = consumed ++ i.rest
  line : i.line = 1 + consumed.count 10
  column : i.position.column = (consumed.rtakeWhile (· ≠ 10)).length
  taken : i.position.taken.reverse = consumed.rtakeWhile (· ≠ 10)

theorem consumed_of_pass {read : List UInt8} (split : script = read ++ i.rest)
    (position : i.position = Position.pass {} read) : i.Consumed script read := by
  have taken : i.position.taken.reverse = read.rtakeWhile (· ≠ 10) := by
    rw [position, Position.taken_pass]
  refine ⟨split, ?_, ?_, taken⟩
  · rw [line, position, Position.line_pass]
  · rw [← taken, List.length_reverse, Position.column]

/-- A token that was not put back is taken from the octets left. -/
theorem next_takes {read : List UInt8} (fresh : i.putback = none)
    (position : i.position = Position.pass {} read) (h : i.next phase = (t, j)) :
    ∃ more, i.rest = more ++ j.rest ∧ j.position = Position.pass {} (read ++ more) ∧
      (t.kind ≠ .eof → more ≠ []) ∧ (t.kind = .eof → j.rest = []) := by
  obtain ⟨rest, p, putback⟩ := i
  obtain rfl : putback = none := fresh
  obtain rfl : p = Position.pass {} read := position
  rcases found : Lexer.next phase.readsNewlines 0 (Position.pass {} read) rest with ⟨u, q, left⟩
  simp only [next, found] at h
  obtain ⟨rfl, rfl⟩ := Prod.mk.inj h
  obtain ⟨gap, body, passed, spells, rfl⟩ := Lexer.next_passes found
  have split := Lexer.passed_append passed
  have whole : rest = gap ++ body ++ left := by simpa using split
  refine ⟨gap ++ body, whole, by rw [List.append_assoc], fun more nothing => ?_,
    spells.rest_eq_nil⟩
  have shorter := Lexer.rest_lt_of_next found more
  rw [whole, nothing, List.nil_append] at shorter
  exact Nat.lt_irrefl _ shorter

def readAll (i : Input) : List Phase → List Token × Input
  | [] => ([], i)
  | phase :: phases =>
    let (t, j) := i.next phase
    let (ts, k) := j.readAll phases
    (t :: ts, k)

theorem readAll_cons (h : i.next phase = (t, j)) (phases : List Phase) :
    i.readAll (phase :: phases) = (t :: (j.readAll phases).1, (j.readAll phases).2) := by
  simp only [readAll, h]

/-- However many tokens are read, the position is the one behind what has been taken. -/
theorem readAll_passes {read : List UInt8} (fresh : i.putback = none)
    (position : i.position = Position.pass {} read) (phases : List Phase) :
    ∃ more, i.rest = more ++ (i.readAll phases).2.rest ∧
      (i.readAll phases).2.putback = none ∧
      (i.readAll phases).2.position = Position.pass {} (read ++ more) := by
  induction phases generalizing i read with
  | nil => exact ⟨[], rfl, fresh, by rwa [List.append_nil]⟩
  | cons phase phases ih =>
    rcases h : i.next phase with ⟨t, j⟩
    obtain ⟨first, split, there, -⟩ := next_takes fresh position h
    have fresh' : j.putback = none := by
      have empty := i.putback_next phase
      rwa [h] at empty
    obtain ⟨more, split', empty, place⟩ := ih fresh' there
    rw [readAll_cons h]
    refine ⟨first ++ more, ?_, empty, ?_⟩
    · rw [split, split', List.append_assoc]
    · rw [place, List.append_assoc]

/-- There are no more tokens than octets in front of the end. -/
theorem readAll_ends {read : List UInt8} (fresh : i.putback = none)
    (position : i.position = Position.pass {} read) {phases : List Phase}
    (long : i.rest.length < phases.length) : ∃ t ∈ (i.readAll phases).1, t.kind = .eof := by
  induction phases generalizing i read with
  | nil => exact absurd long (Nat.not_lt_zero _)
  | cons phase phases ih =>
    rcases h : i.next phase with ⟨t, j⟩
    obtain ⟨first, split, there, progress, -⟩ := next_takes fresh position h
    rw [readAll_cons h]
    by_cases ends : t.kind = .eof
    · exact ⟨t, List.mem_cons_self, ends⟩
    · have fresh' : j.putback = none := by
        have empty := i.putback_next phase
        rwa [h] at empty
      have some : 0 < first.length := List.length_pos_iff.mpr (progress ends)
      have shorter : j.rest.length < phases.length := by
        have whole := congrArg List.length split
        rw [List.length_append] at whole
        rw [List.length_cons] at long
        omega
      obtain ⟨u, inside, last⟩ := ih fresh' there shorter
      exact ⟨u, List.mem_cons_of_mem _ inside, last⟩

/-- Reading loses nothing of a script and goes on. At every moment the script is what has been
consumed with what is left behind it, and the position tells what has been consumed; every token
but the end, malformed ones included, takes an octet at least, and the end leaves none. So it is
found within one call more than there are octets. -/
theorem readAll_consumes (script : String) (phases : List Phase) :
    (∃ consumed, ((ofScript script).readAll phases).2.Consumed (Utf8.encode script) consumed ∧
      ∀ phase t j, ((ofScript script).readAll phases).2.next phase = (t, j) →
        ∃ more, j.Consumed (Utf8.encode script) (consumed ++ more) ∧
          (t.kind ≠ .eof → more ≠ []) ∧ (t.kind = .eof → j.rest = [])) ∧
    ((Utf8.encode script).length < phases.length →
      ∃ t ∈ ((ofScript script).readAll phases).1, t.kind = .eof) := by
  have start : (ofScript script).position = Position.pass {} [] := rfl
  refine ⟨?_, readAll_ends rfl start⟩
  obtain ⟨consumed, split, fresh, place⟩ := readAll_passes rfl start phases
  rw [List.nil_append] at place
  refine ⟨consumed, consumed_of_pass split place, fun phase t j h => ?_⟩
  obtain ⟨more, left, there, progress, ends⟩ := next_takes fresh place h
  refine ⟨more, consumed_of_pass ?_ there, progress, ends⟩
  rw [List.append_assoc, ← left]
  exact split

/-- A comment in front of a newline, an octet that starts no token, and a literal that its line does
not close. -/
theorem readAll_consumes_malformed :
    let i := ofScript "// a\n@ 'b"
    ∃ consumed more j, (i.readAll [.stmt, .expr]).2.next .stmt =
        (⟨.error, Lexer.unterminated⟩, j) ∧
      j.Consumed (Utf8.encode "// a\n@ 'b") (consumed ++ more) ∧ more ≠ [] ∧
      ∃ t ∈ (i.readAll (List.replicate 10 .stmt)).1, t.kind = .eof := by
  intro i
  obtain ⟨⟨consumed, -, onward⟩, -⟩ := readAll_consumes "// a\n@ 'b" [.stmt, .expr]
  have ends := (readAll_consumes "// a\n@ 'b" (List.replicate 10 .stmt)).2 (by decide)
  have read : ((i.readAll [.stmt, .expr]).2.next .stmt).1 = ⟨.error, Lexer.unterminated⟩ := by
    decide
  obtain ⟨more, behind, progress, -⟩ := onward .stmt _ _ (Prod.ext read rfl)
  exact ⟨consumed, more, _, Prod.ext read rfl, behind, progress (by decide), ends⟩

/-! ### What the phases decide -/

def size (i : Input) : Nat := i.rest.length + i.putback.toList.length

theorem size_next_lt (h : i.next phase = (t, j)) (more : t.kind ≠ .eof) : j.size < i.size := by
  obtain ⟨rest, p, putback⟩ := i
  cases putback with
  | some u =>
    obtain ⟨-, rfl⟩ := Prod.mk.inj h
    simp [size]
  | none =>
    rcases found : Lexer.next phase.readsNewlines 0 p rest with ⟨u, q, left⟩
    simp only [next, found] at h
    obtain ⟨rfl, rfl⟩ := Prod.mk.inj h
    simpa [size] using Lexer.rest_lt_of_next found more

/-- The tokens up to the end of the script, each with the position behind it. They are read in these
phases, one after the other. -/
def stream (phases : Nat → Phase) (i : Input) : List (Token × Position) :=
  match h : i.next (phases 0) with
  | (t, j) =>
    if ends : t.kind = .eof then [(t, j.position)]
    else (t, j.position) :: stream (fun n => phases (n + 1)) j
termination_by i.size
decreasing_by exact size_next_lt h ends

section Stream

variable {phases : Nat → Phase}

theorem stream_of_eof (h : i.next (phases 0) = (t, j)) (ends : t.kind = .eof) :
    i.stream phases = [(t, j.position)] := by
  rw [stream]
  simp [h, ends]

theorem stream_of_more (h : i.next (phases 0) = (t, j)) (more : t.kind ≠ .eof) :
    i.stream phases = (t, j.position) :: j.stream fun n => phases (n + 1) := by
  rw [stream]
  simp [h, more]

/-- Readers that get the same token, and stand in the same place then, get the same stream. -/
theorem stream_congr (h : i.next (phases 0) = j.next (phases 0)) :
    i.stream phases = j.stream phases := by
  rcases first : j.next (phases 0) with ⟨t, k⟩
  rw [first] at h
  by_cases ends : t.kind = .eof
  · rw [stream_of_eof h ends, stream_of_eof first ends]
  · rw [stream_of_more h ends, stream_of_more first ends]

def visible (s : List (Token × Position)) : List (Token × Position) :=
  s.filter (·.1.kind ≠ .newline)

/-- A newline in front is not seen. -/
theorem visible_of_newline (h : i.next (phases 0) = (t, j)) (newline : t.kind = .newline) :
    visible (i.stream phases) = visible (j.stream fun n => phases (n + 1)) := by
  rw [stream_of_more h (by simp [newline])]
  simp [visible, newline]

end Stream

/-- Where newlines count a reader gets the token that one gets where they do not, or a newline in
front of it. -/
theorem next_newline (i : Input) {phase phase' : Phase} (counts : phase.readsNewlines = true)
    (blank : phase'.readsNewlines = false) :
    i.next phase = i.next phase' ∨
      (i.next phase).1.kind = .newline ∧ (i.next phase).2.next phase' = i.next phase' := by
  obtain ⟨rest, p, putback⟩ := i
  cases putback with
  | some u => exact .inl rfl
  | none =>
    rcases found : Lexer.next true 0 p rest with ⟨t, q, left⟩
    simp only [next, counts, blank, found]
    rcases Lexer.next_past_newline found with equal | ⟨newline, equal⟩
    · simp [equal]
    · simp [equal, newline]

/-- In whatever phases they are read, readers get the same token, or one of them a newline first. -/
theorem next_phases (i : Input) (phase phase' : Phase) :
    i.next phase = i.next phase' ∨
      (i.next phase).1.kind = .newline ∧ (i.next phase).2.next phase' = i.next phase' ∨
      (i.next phase').1.kind = .newline ∧ (i.next phase').2.next phase = i.next phase := by
  by_cases same : phase.readsNewlines = phase'.readsNewlines
  · refine .inl ?_
    simp only [next, same]
  · cases counts : phase.readsNewlines with
    | true => exact (i.next_newline counts (by simpa [counts] using same)).imp_right .inl
    | false =>
      have counts' : phase'.readsNewlines = true := by simpa [counts] using same
      exact (i.next_newline counts' counts).imp Eq.symm .inr

/-- The phases decide about newlines only. Read in any phases, malformed tokens passed over, a
script has the same other tokens up to its end, and the positions behind them are the same. -/
theorem visible_stream (i : Input) (phases phases' : Nat → Phase) :
    visible (i.stream phases) = visible (i.stream phases') := by
  induction hn : i.size using Nat.strongRecOn generalizing i phases phases' with
  | ind n ih =>
    subst hn
    rcases first : i.next (phases 0) with ⟨t, j⟩
    rcases first' : i.next (phases' 0) with ⟨t', j'⟩
    have agree := i.next_phases (phases 0) (phases' 0)
    rw [first, first'] at agree
    rcases agree with same | ⟨newline, same⟩ | ⟨newline, same⟩
    · obtain ⟨rfl, rfl⟩ := Prod.mk.inj same
      by_cases ends : t.kind = .eof
      · rw [stream_of_eof first ends, stream_of_eof first' ends]
      · have behind := ih j.size (size_next_lt first ends) j (fun n => phases (n + 1))
          (fun n => phases' (n + 1)) rfl
        rw [stream_of_more first ends, stream_of_more first' ends]
        simp only [visible, List.filter_cons] at behind ⊢
        rw [behind]
    · have newline : t.kind = .newline := newline
      have shorter : j.size < i.size := size_next_lt first (by simp [newline])
      have onward : i.stream phases' = j.stream phases' := stream_congr (first'.trans same.symm)
      rw [visible_of_newline first newline, onward]
      exact ih j.size shorter j _ _ rfl
    · have newline : t'.kind = .newline := newline
      have shorter : j'.size < i.size := size_next_lt first' (by simp [newline])
      have onward : i.stream phases = j'.stream phases := stream_congr (first.trans same.symm)
      rw [visible_of_newline first' newline, onward]
      exact ih j'.size shorter j' _ _ rfl

end Input

end Scriptlet
