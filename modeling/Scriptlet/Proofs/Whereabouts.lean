import Mathlib.Logic.Relation
import Scriptlet.Proofs.Appending

/-!
Where a reader stands. Reading passes through a script piece by piece, up to the first malformed
one, and the position behind what has been read tells the line of the script and the octets read of
that line. A token that is put back leaves the position behind it.
-/

namespace Scriptlet

def Lexer.lines (script : List UInt8) : List (List UInt8) := script.splitOn 10

namespace Position

theorem pass_cons (p : Position) (b : UInt8) (bytes : List UInt8) :
    p.pass (b :: bytes) = (p.advance b).pass bytes := rfl

theorem line_pass (p : Position) (bytes : List UInt8) :
    (p.pass bytes).line = p.line + bytes.count 10 := by
  induction bytes generalizing p with
  | nil => rfl
  | cons b bytes ih =>
    rw [pass_cons, ih, line_advance]
    by_cases newline : b = 10
    · subst newline
      rw [if_pos rfl, List.count_cons_self]
      omega
    · rw [if_neg newline, List.count_cons_of_ne newline]

/-- Behind `read` the reader is in the line that its position names, and what it has taken of that
line stands at the front of it. -/
theorem lines_pass (p : Position) (inLine : 10 ∉ p.taken) (read rest : List UInt8) :
    ∃ left, (Lexer.lines (p.taken.reverse ++ (read ++ rest)))[read.count 10]? =
      some ((p.pass read).taken.reverse ++ left) := by
  have clean : 10 ∉ p.taken.reverse := by simpa using inLine
  induction read generalizing p with
  | nil =>
    by_cases more : 10 ∈ rest
    · obtain ⟨left, rest, rfl, first⟩ := List.eq_append_cons_of_mem more
      refine ⟨left, ?_⟩
      have front : 10 ∉ p.taken.reverse ++ left := by simp [first, inLine]
      rw [List.nil_append, ← List.append_assoc, Lexer.lines,
        List.splitOn_append_cons_self_of_not_mem front]
      rfl
    · refine ⟨rest, ?_⟩
      have whole : 10 ∉ p.taken.reverse ++ rest := by simp [more, inLine]
      rw [List.nil_append, Lexer.lines, List.splitOn_eq_singleton whole]
      rfl
  | cons b read ih =>
    by_cases newline : b = 10
    · subst newline
      obtain ⟨left, found⟩ := ih (p.advance 10) (by simp [advance]) (by simp [advance])
      refine ⟨left, ?_⟩
      rw [List.cons_append, Lexer.lines, List.splitOn_append_cons_self_of_not_mem clean,
        List.count_cons_self, List.getElem?_cons_succ]
      simpa [pass_cons, advance, Lexer.lines] using found
    · have next : (p.advance b).taken = b :: p.taken := by simp [advance, newline]
      have inLine' : 10 ∉ (p.advance b).taken := by simp [next, inLine, Ne.symm newline]
      obtain ⟨left, found⟩ := ih (p.advance b) inLine' (by simpa using inLine')
      refine ⟨left, ?_⟩
      rw [List.count_cons_of_ne newline]
      simpa [pass_cons, next] using found

/-- A reader of a script is in one of its lines. -/
theorem line_of_script {script read rest : List UInt8} (h : script = read ++ rest) :
    ∃ line left, (Lexer.lines script)[(pass {} read).line - 1]? = some line ∧
      line = (pass {} read).taken.reverse ++ left := by
  obtain ⟨left, found⟩ := lines_pass {} (by simp) read rest
  refine ⟨_, left, ?_, rfl⟩
  rw [line_pass, Nat.add_sub_cancel_left, h]
  exact found

end Position

namespace Lexer

/-! ### Passing through a script -/

inductive Passes : List UInt8 × List UInt8 → List UInt8 × List UInt8 → Prop where
  | piece {read b bs} : (piece b bs).Proper →
      Passes (read, b :: bs)
        (read ++ b :: bs.take (piece b bs).width, bs.drop (piece b bs).width)

/-- Reading a script from its start arrives between `read` and `rest`. -/
def Arrives (script read rest : List UInt8) : Prop :=
  Relation.ReflTransGen Passes ([], script) (read, rest)

theorem passes_unique : Relator.RightUnique Passes := by
  rintro _ _ _ ⟨_⟩ ⟨_⟩
  rfl

/-- What is passed is neither lost nor changed. -/
theorem passed_append {x y : List UInt8 × List UInt8} (h : Relation.ReflTransGen Passes x y) :
    x.1 ++ x.2 = y.1 ++ y.2 := by
  induction h with
  | refl => rfl
  | tail _ step ih =>
    rw [ih]
    cases step
    simp

theorem Arrives.split {script read rest : List UInt8} (h : Arrives script read rest) :
    script = read ++ rest :=
  passed_append h

/-- There is one place where a script is malformed first. -/
theorem Arrives.malformed_unique {script read read' bs bs' : List UInt8} {b b' : UInt8}
    (h : Arrives script read (b :: bs)) (malformed : ¬ (piece b bs).Proper)
    (h' : Arrives script read' (b' :: bs')) (malformed' : ¬ (piece b' bs').Proper) :
    read = read' ∧ b = b' ∧ bs = bs' := by
  have stuck : ∀ {read b bs}, ¬ (piece b bs).Proper → ∀ y, ¬ Passes (read, b :: bs) y := by
    rintro read b bs malformed _ ⟨proper⟩
    exact malformed proper
  rcases Relation.ReflTransGen.total_of_right_unique passes_unique h h' with onward | onward
  · rw [Relation.reflTransGen_iff_eq (stuck malformed)] at onward
    simpa [eq_comm] using onward
  · rw [Relation.reflTransGen_iff_eq (stuck malformed')] at onward
    simpa using onward

inductive Spells : Token → List UInt8 → List UInt8 → Prop where
  | eof : Spells .eof [] []
  | newline {b bs} : piece b bs = .newline → Spells ⟨.newline, "\n"⟩ [b] bs
  | token {t b bs width} : piece b bs = .token t width →
      Spells t (b :: bs.take width) (bs.drop width)

theorem next_skip (newlines : Bool) (skip : Nat) (p : Position) (bs : List UInt8) :
    next newlines skip p bs = next newlines 0 (p.pass (bs.take skip)) (bs.drop skip) := by
  induction skip generalizing p bs with
  | zero => rfl
  | succ skip ih =>
    cases bs with
    | nil => rfl
    | cons b bs => exact ih (p.advance b) bs

/-- A reader passes what stands in front of the token that it gets. -/
theorem next_passes {newlines : Bool} {read bs rest : List UInt8} {t : Token} {p : Position}
    (h : next newlines 0 (Position.pass {} read) bs = (t, p, rest)) :
    ∃ gap body, Relation.ReflTransGen Passes (read, bs) (read ++ gap, body ++ rest) ∧
      Spells t body rest ∧ p = Position.pass {} (read ++ gap ++ body) := by
  induction hn : bs.length using Nat.strongRecOn generalizing read bs with
  | ind n ih =>
    subst hn
    cases bs with
    | nil =>
      cases h
      exact ⟨[], [], by simpa using .refl, .eof, by simp⟩
    | cons b bs =>
      have onward : ∀ width, (piece b bs).width = width → (piece b bs).Proper →
          next newlines 0 (Position.pass {} (read ++ b :: bs.take width)) (bs.drop width) =
            (t, p, rest) → ∃ gap body,
          Relation.ReflTransGen Passes (read, b :: bs) (read ++ gap, body ++ rest) ∧
            Spells t body rest ∧ p = Position.pass {} (read ++ gap ++ body) := by
        rintro _ rfl proper h
        have shorter : (bs.drop (piece b bs).width).length < (b :: bs).length := by
          rw [List.length_drop, List.length_cons]
          omega
        obtain ⟨gap, body, passed, spells, position⟩ := ih _ shorter h rfl
        refine ⟨b :: bs.take (piece b bs).width ++ gap, body, ?_, spells, ?_⟩
        · refine .head (.piece proper) ?_
          simpa using passed
        · simpa using position
      rw [next] at h
      cases hp : piece b bs with
      | blank width =>
        rw [hp] at h
        dsimp only at h
        rw [next_skip] at h
        refine onward width (by rw [hp]; rfl) (by rw [hp]; trivial) ?_
        simpa [Position.pass] using h
      | newline =>
        rw [hp] at h
        cases newlines with
        | true =>
          cases h
          exact ⟨[], [b], by simpa using .refl, .newline hp, by simp [Position.pass]⟩
        | false =>
          refine onward 0 (by rw [hp]; rfl) (by rw [hp]; trivial) ?_
          simpa [Position.pass] using h
      | token t' width =>
        rw [hp] at h
        cases h
        refine ⟨[], b :: bs.take width, by simpa using .refl, .token hp, ?_⟩
        simp [Position.pass]

/-- A token that is well-formed is passed in its turn. -/
theorem Arrives.passed {script read body rest : List UInt8} {t : Token}
    (h : Arrives script read (body ++ rest)) (spells : Spells t body rest)
    (proper : t.kind ≠ .error) : Arrives script (read ++ body) rest := by
  cases spells with
  | eof => simpa using h
  | newline hp =>
    have step := @Passes.piece read _ _ (by rw [hp]; trivial)
    rw [hp] at step
    exact h.tail step
  | token hp =>
    have step := @Passes.piece read _ _ (by rw [hp]; exact proper)
    rw [hp] at step
    have here := h
    rw [List.cons_append, List.take_append_drop] at here
    exact here.tail step

/-- Neither names nor the blanks behind them hold a newline. -/
theorem word_inLine {b : UInt8} {bs : List UInt8} {t : Token} {width : Nat}
    (h : word b bs = .token t width) (named : t.kind = .identifier) : 10 ∉ bs.take width := by
  have run : ∀ (f : UInt8 → Bool) (bytes : List UInt8), f 10 = false →
      10 ∉ bytes.take (bytes.takeWhile f).length := by
    intro f bytes stop inside
    rw [← List.prefix_iff_eq_take.mp (List.takeWhile_prefix f)] at inside
    have all := List.all_eq_true.mp (List.all_takeWhile (p := f) (l := bytes)) 10 inside
    rw [stop] at all
    cases all
  unfold word at h
  dsimp only at h
  split at h
  · rename_i kind found
    cases h
    have listed := List.mem_of_find?_eq_some found
    simp [show kind = .identifier from named] at listed
  · cases h
    rw [List.take_add, List.mem_append, not_or]
    exact ⟨run _ _ rfl, run _ _ rfl⟩

/-- A name is spelt within one line. -/
theorem Spells.inLine {t : Token} {body rest : List UInt8} (h : Spells t body rest)
    (named : t.kind = .identifier) : 10 ∉ body := by
  cases h with
  | eof => cases named
  | newline => cases named
  | @token _ b bs width hp =>
    have start := isNameStart_of_piece hp named
    rw [piece_word start] at hp
    have first : b ≠ 10 := by
      rintro rfl
      cases start
    simp only [List.mem_cons, not_or]
    exact ⟨first.symm, word_inLine hp named⟩

end Lexer

/-! ### Readers -/

namespace Input

variable {script before : List UInt8} {i j : Input} {t : Token} {phase : Phase}

def Stands (script : List UInt8) (i : Input) : Prop :=
  ∃ read, script = read ++ i.rest ∧ i.position = Position.pass {} read

structure Got (script before : List UInt8) (t : Token) (i : Input) : Prop where
  putback : i.putback = none
  spelt : ∃ body, Lexer.Arrives script before (body ++ i.rest) ∧ Lexer.Spells t body i.rest ∧
    i.position = Position.pass {} (before ++ body)

/-- A reader that has met no malformed token. One that is put back is the token taken last. -/
structure Sited (script : List UInt8) (i : Input) : Prop where
  arrived : ∃ read, Lexer.Arrives script read i.rest ∧ i.position = Position.pass {} read
  back : ∀ t, i.putback = some t →
    ∃ before, ({ i with putback := none } : Input).Got script before t

theorem sited_ofScript (script : String) : (ofScript script).Sited (Utf8.encode script) :=
  ⟨⟨[], .refl, rfl⟩, nofun⟩

theorem Got.stands (h : i.Got script before t) : i.Stands script := by
  obtain ⟨-, body, arrives, -, position⟩ := h
  exact ⟨before ++ body, by simpa using arrives.split, position⟩

theorem Sited.stands (h : i.Sited script) : i.Stands script := by
  obtain ⟨⟨read, arrives, position⟩, -⟩ := h
  exact ⟨read, arrives.split, position⟩

theorem Sited.next (h : i.Sited script) (read : i.next phase = (t, j)) :
    ∃ before, j.Got script before t := by
  obtain ⟨rest, position, putback⟩ := i
  cases putback with
  | some u =>
    obtain ⟨rfl, rfl⟩ := Prod.mk.inj read
    exact h.back _ rfl
  | none =>
    obtain ⟨⟨before, arrives, rfl⟩, -⟩ := h
    rcases found : Lexer.next phase.readsNewlines 0 (Position.pass {} before) rest with
      ⟨u, p, left⟩
    simp only [Input.next, found] at read
    obtain ⟨rfl, rfl⟩ := Prod.mk.inj read
    obtain ⟨gap, body, passed, spells, position⟩ := Lexer.next_passes found
    exact ⟨before ++ gap, rfl, body, arrives.trans passed, spells, position⟩

theorem Got.sited (h : i.Got script before t) (proper : t.kind ≠ .error) : i.Sited script := by
  obtain ⟨empty, body, arrives, spells, position⟩ := h
  refine ⟨⟨before ++ body, arrives.passed spells proper, position⟩, fun u back => ?_⟩
  rw [empty] at back
  cases back

theorem Got.unread (h : i.Got script before t) (proper : t.kind ≠ .error) :
    (i.unread t).Sited script := by
  obtain ⟨arrived, -⟩ := h.sited proper
  refine ⟨arrived, ?_⟩
  rintro _ ⟨⟩
  have same : ({ i.unread t with putback := none } : Input) = i := by
    rw [← h.putback]
    rfl
  exact ⟨before, same ▸ h⟩

/-- A token more is as many lines more as there are newlines in what has been read for it. -/
theorem Got.line_next (h : i.Got script before t) {u : Token} (read : i.next phase = (u, j)) :
    ∃ gone, i.rest = gone ++ j.rest ∧ j.line = i.line + gone.count 10 := by
  obtain ⟨rest, position, putback⟩ := i
  obtain ⟨empty, body, -, -, at'⟩ := h
  dsimp only at empty at'
  subst empty at'
  rcases found : Lexer.next phase.readsNewlines 0 (Position.pass {} (before ++ body)) rest with
    ⟨v, p, left⟩
  simp only [Input.next, found] at read
  obtain ⟨rfl, rfl⟩ := Prod.mk.inj read
  obtain ⟨gap, body', passed, -, rfl⟩ := Lexer.next_passes found
  refine ⟨gap ++ body', ?_, ?_⟩
  · simpa using Lexer.passed_append passed
  · simp only [Input.line, Position.line_pass, List.count_append]
    omega

/-- A reader that stands in a script is in one of its lines, and quotes the front of it. -/
theorem Stands.line (h : i.Stands script) : 1 ≤ i.line ∧ ∃ line left,
    (Lexer.lines script)[i.line - 1]? = some line ∧ line = i.position.taken.reverse ++ left := by
  obtain ⟨read, split, position⟩ := h
  rw [Input.line, position]
  refine ⟨?_, Position.line_of_script split⟩
  rw [Position.line_pass]
  exact Nat.le_add_right 1 _

/-- Behind a name the reader is in the line of the name. -/
theorem Got.line_of_name (h : i.Got script before t) (named : t.kind = .identifier) :
    i.line = 1 + before.count 10 := by
  obtain ⟨-, body, -, spells, position⟩ := h
  rw [Input.line, position, Position.line_pass, List.count_append,
    List.count_eq_zero.mpr (spells.inLine named)]
  rfl

/-- A malformed token is the piece that it was read from. -/
theorem Got.of_error {message : String} (h : i.Got script before ⟨.error, message⟩) :
    ∃ b bs width, Lexer.Arrives script before (b :: bs) ∧
      Lexer.piece b bs = .error message width ∧
      i.position = Position.pass {} (before ++ b :: bs.take width) := by
  obtain ⟨-, body, arrives, spells, position⟩ := h
  generalize i.rest = rest at arrives spells
  generalize token : (⟨.error, message⟩ : Token) = t at spells
  cases spells with
  | eof => cases token
  | newline => cases token
  | @token _ b bs width hp =>
    subst token
    rw [List.cons_append, List.take_append_drop] at arrives
    exact ⟨b, bs, width, arrives, hp, position⟩

end Input

end Scriptlet
