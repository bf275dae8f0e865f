import Scriptlet.Proofs.Numerals
import Scriptlet.Proofs.Tokens

/-!
A script in front of another one. A newline and further text behind a script change none of the
tokens in front of them, unless one of these is malformed: only an open comment or string would
reach into what is added. So a reader of the longer script gets what a reader of the shorter one
gets until that one finds the end, where it gets the newline.
-/

namespace Scriptlet

namespace Lexer

variable (more : List UInt8)

def Piece.Proper : Piece → Prop
  | .token t _ => t.kind ≠ .error
  | _ => True

def Piece.width : Piece → Nat
  | .blank width => width
  | .newline => 0
  | .token _ width => width

/-- `p` was scanned from `n` octets, and `q` where more of them follow: it is the same piece, unless
it is malformed, and does not reach further. -/
def Piece.Steady (n : Nat) (p q : Piece) : Prop := p.Proper → q = p ∧ p.width ≤ n

namespace Piece.Steady

variable {n : Nat} {p q : Piece}

theorem same (le : p.width ≤ n) : p.Steady n p := fun _ => ⟨rfl, le⟩

theorem error (message : String) (width : Nat) : (Piece.error message width).Steady n q :=
  fun proper => absurd rfl proper

theorem ite {c : Prop} [Decidable c] {p' q' : Piece} (h : p.Steady n q) (h' : p'.Steady n q') :
    (if c then p else p').Steady n (if c then q else q') := by
  split
  · exact h
  · exact h'

theorem mono {m : Nat} (h : p.Steady n q) (le : n ≤ m) : p.Steady m q :=
  fun proper => ⟨(h proper).1, Nat.le_trans (h proper).2 le⟩

end Piece.Steady

/-! ### Scanners -/

section Runs

variable {f : UInt8 → Bool} (stop : f 10 = false) (bs : List UInt8)

theorem length_takeWhile_le : (bs.takeWhile f).length ≤ bs.length :=
  (List.takeWhile_sublist f).length_le

theorem drop_newline {n : Nat} {bs : List UInt8} (le : n ≤ bs.length) :
    (bs ++ 10 :: more).drop n = bs.drop n ++ 10 :: more :=
  List.drop_append_of_le_length le

include stop

/-- A run of octets that a newline is none of ends where it did. -/
theorem takeWhile_newline : (bs ++ 10 :: more).takeWhile f = bs.takeWhile f := by
  induction bs with
  | nil => simp [stop]
  | cons b bs ih => simp only [List.cons_append, List.takeWhile_cons, ih]

end Runs

/-- What is added starts with nothing but the newline. -/
theorem head?_newline {b : UInt8} (other : b ≠ 10) (bs : List UInt8) :
    ((bs ++ 10 :: more).head? = some b) = (bs.head? = some b) := by
  cases bs with
  | nil => simp [other.symm]
  | cons c bs => rfl

theorem eq_cons_of_append {b : UInt8} {bs rest : List UInt8} (h : bs ++ 10 :: more = b :: rest)
    (other : b ≠ 10) : ∃ tail, bs = b :: tail := by
  have first : bs.head? = some b := by
    rw [← head?_newline more other, h]
    rfl
  exact List.head?_eq_some_iff.mp first

theorem blockComment_append {bs : List UInt8} {width : Nat} (h : blockComment bs = some width) :
    blockComment (bs ++ 10 :: more) = some width ∧ width ≤ bs.length := by
  fun_induction blockComment bs generalizing width with
  | case1 rest =>
    obtain rfl := Option.some.inj h
    exact ⟨rfl, by simp⟩
  | case2 b bs other ih =>
    obtain ⟨inner, found, rfl⟩ := Option.map_eq_some_iff.mp h
    obtain ⟨same, le⟩ := ih found
    have onward : ∀ rest, b = 42 → bs ++ 10 :: more = 47 :: rest → False := by
      intro rest star slash
      obtain ⟨tail, rfl⟩ := eq_cons_of_append more slash (by decide)
      exact other tail star rfl
    rw [List.cons_append, blockComment.eq_2 _ _ onward, same]
    exact ⟨rfl, by simpa using le⟩
  | case3 => cases h

theorem slash_append (bs : List UInt8) :
    (slash bs).Steady bs.length (slash (bs ++ 10 :: more)) := by
  fun_cases slash bs with
  | case1 rest =>
    have same := takeWhile_newline more (f := (· != 10)) rfl (47 :: rest)
    rw [List.cons_append, slash.eq_1, ← List.cons_append, same]
    exact .same (length_takeWhile_le (47 :: rest))
  | case2 rest width found =>
    obtain ⟨same, le⟩ := blockComment_append more found
    rw [List.cons_append, slash.eq_2, same]
    exact .same (by simpa [Piece.width] using le)
  | case3 => exact .error _ _
  | case4 _ line block =>
    rw [slash.eq_3 (bs ++ 10 :: more)]
    · exact .same (Nat.zero_le _)
    · intro rest h
      obtain ⟨tail, rfl⟩ := eq_cons_of_append more h (by decide)
      exact line tail rfl
    · intro rest h
      obtain ⟨tail, rfl⟩ := eq_cons_of_append more h (by decide)
      exact block tail rfl

theorem string_append (quote : UInt8) (value : List UInt8) (width : Nat) (q : Quoted)
    (bs : List UInt8) :
    (string quote value width q bs).Steady (width + bs.length)
      (string quote value width q (bs ++ 10 :: more)) := by
  induction bs generalizing value width q with
  | nil => cases q <;> exact .error _ _
  | cons b bs ih =>
    have onward : ∀ value q, (string quote value (width + 1) q bs).Steady
        (width + (b :: bs).length) (string quote value (width + 1) q (bs ++ 10 :: more)) :=
      fun value q => (ih value (width + 1) q).mono (by rw [List.length_cons]; omega)
    have short : ∀ t, (Piece.token t (width + 1)).width ≤ width + (b :: bs).length := by
      simp [Piece.width]
    cases q with
    | plain =>
      refine .ite (.error _ _) (.ite (.same (short _)) ?_)
      exact .ite (onward _ _) (onward _ _)
    | escape => exact .ite (onward _ _) (.ite (onward _ _) (onward _ _))
    | digits wanted n =>
      refine .ite (.error _ _) (.ite (onward _ _) ?_)
      split
      · exact onward _ _
      · exact .error _ _

/-- A newline ends a numeral as well as the end of the script does. -/
theorem literal_append (text : List UInt8) (width : Nat) (rest : List UInt8) :
    (literal text width rest).Steady width (literal text width (rest ++ 10 :: more)) := by
  cases rest with
  | nil => exact .same (Nat.le_refl width)
  | cons b rest => exact .ite (.error _ _) (.same (Nat.le_refl width))

theorem exponentMark_append (e : UInt8) (bs : List UInt8) :
    exponentMark e (bs ++ 10 :: more) = exponentMark e bs ∧
      (exponentMark e bs).length ≤ (e :: bs).length := by
  cases bs with
  | nil => exact ⟨rfl, Nat.le_refl 1⟩
  | cons s bs =>
    refine ⟨rfl, ?_⟩
    rw [exponentMark]
    split <;> simp

theorem exponent_append (text : List UInt8) (width : Nat) (rest : List UInt8) :
    (exponent text width rest).Steady (width + rest.length)
      (exponent text width (rest ++ 10 :: more)) := by
  have plain := (literal_append more text width rest).mono (Nat.le_add_right width rest.length)
  cases rest with
  | nil => exact plain
  | cons e bs =>
    by_cases letter : (e == 101 || e == 69) = true
    · obtain ⟨mark, le⟩ := exponentMark_append more e bs
      have after : (e :: (bs ++ 10 :: more)).drop (exponentMark e bs).length =
          (e :: bs).drop (exponentMark e bs).length ++ 10 :: more := drop_newline more le
      rw [List.cons_append, exponent_letter letter, exponent_letter letter, mark, after]
      generalize hrest : (e :: bs).drop (exponentMark e bs).length = rest
      have digits := takeWhile_newline more (f := isDigit) rfl rest
      have short := length_takeWhile_le (f := isDigit) rest
      have length : (exponentMark e bs).length + rest.length = (e :: bs).length := by
        rw [← hrest, List.length_drop]
        omega
      simp only [digits, drop_newline more short]
      exact .ite (.error _ _) ((literal_append more _ _ _).mono (by omega))
    · simpa [exponent, letter] using plain

theorem hexadecimal_append (bs : List UInt8) :
    (hexadecimal bs).Steady (1 + bs.length) (hexadecimal (bs ++ 10 :: more)) := by
  have short := length_takeWhile_le (f := isHexDigit) bs
  simp only [hexadecimal, takeWhile_newline more (f := isHexDigit) rfl, drop_newline more short]
  exact .ite (.error _ _) ((literal_append more _ _ _).mono (by omega))

theorem decimal_append (first : UInt8) (bs : List UInt8) :
    (decimal first bs).Steady bs.length (decimal first (bs ++ 10 :: more)) := by
  simp only [decimal, takeWhile_newline more (f := isDigit) rfl]
  generalize hwhole : (if first = 46 then [] else bs.takeWhile isDigit) = whole
  have fits : whole.length ≤ bs.length := by
    have digits := length_takeWhile_le (f := isDigit) bs
    rw [← hwhole]
    split
    · exact Nat.zero_le _
    · exact digits
  rw [drop_newline more fits]
  generalize hafter : bs.drop whole.length = after
  simp only [head?_newline more (b := 46) (by decide)]
  generalize hpoint : (if first ≠ 46 ∧ after.head? = some 46 then [46] else [] : List UInt8) = point
  have fits' : point.length ≤ after.length := by
    rw [← hpoint]
    split
    · rename_i found
      obtain ⟨tail, rfl⟩ := List.head?_eq_some_iff.mp found.2
      simp
    · exact Nat.zero_le _
  rw [drop_newline more fits', takeWhile_newline more rfl]
  generalize hplaces : after.drop point.length = places
  have short := length_takeWhile_le (f := isDigit) places
  rw [drop_newline more short]
  refine (exponent_append more _ _ _).mono ?_
  subst hafter hplaces
  simp only [List.length_append, List.length_drop] at short ⊢
  simp only [List.length_drop] at fits'
  omega

theorem number_append (first : UInt8) (bs : List UInt8) :
    (number first bs).Steady bs.length (number first (bs ++ 10 :: more)) := by
  cases bs with
  | nil =>
    have other : ¬(first = 48 ∧ ((10 : UInt8) = 120 ∨ (10 : UInt8) = 88)) := by simp
    rw [List.nil_append, number, number, if_neg other]
    exact decimal_append more first []
  | cons x rest =>
    refine .ite ((hexadecimal_append more rest).mono ?_) (decimal_append more first (x :: rest))
    rw [List.length_cons]
    omega

theorem word_append (first : UInt8) (bs : List UInt8) :
    (word first bs).Steady bs.length (word first (bs ++ 10 :: more)) := by
  have short := length_takeWhile_le (f := isNameByte) bs
  have tail := takeWhile_newline more (f := isNameByte) rfl bs
  simp only [word, tail, drop_newline more short]
  split
  · exact .same short
  · generalize hrest : bs.drop (bs.takeWhile isNameByte).length = rest
    have blanks := takeWhile_newline more (f := isCallBlank) rfl rest
    have short' := length_takeWhile_le (f := isCallBlank) rest
    simp only [blanks, drop_newline more short', head?_newline more (b := 40) (by decide)]
    refine .same ?_
    have length : (bs.takeWhile isNameByte).length + rest.length = bs.length := by
      rw [← hrest, List.length_drop]
      omega
    simp only [Piece.width]
    omega

theorem longest_append {short : Piece} {longer : List (UInt8 × Token.Kind)} (bs : List UInt8)
    (narrow : short.width = 0) (other : ∀ entry ∈ longer, entry.1 ≠ 10) :
    (longest short bs longer).Steady bs.length (longest short (bs ++ 10 :: more) longer) := by
  induction longer with
  | nil => exact .same (narrow ▸ Nat.zero_le _)
  | cons entry longer ih =>
    simp only [longest, head?_newline more (other entry (by simp))]
    split
    · rename_i found
      obtain ⟨tail, rfl⟩ := List.head?_eq_some_iff.mp found
      exact .same (by simp [Piece.symbol, Piece.width])
    · exact ih fun e he => other e (by simp [he])

theorem piece_append (b : UInt8) (bs : List UInt8) :
    (piece b bs).Steady bs.length (piece b (bs ++ 10 :: more)) := by
  unfold piece
  split
  · exact .same (Nat.zero_le _)
  · exact slash_append more bs
  iterate 8 exact .same (Nat.zero_le _)
  iterate 8 exact longest_append more bs rfl (by simp)
  iterate 2 exact (string_append more b [] 0 .plain bs).mono (by simp)
  have digit : ((bs ++ 10 :: more).head?.map isDigit).getD false =
      (bs.head?.map isDigit).getD false := by cases bs <;> rfl
  rw [digit]
  refine .ite (.same (Nat.zero_le _)) (.ite (number_append more b bs) ?_)
  exact .ite (word_append more b bs) (.error _ _)

/-! ### Tokens -/

/-- What is read in front of the end is read as before. At the end the newline comes next. -/
theorem next_append {newlines : Bool} {skip : Nat} {p p' : Position} {bs rest : List UInt8}
    {t : Token} (fits : skip ≤ bs.length) (read : next newlines skip p bs = (t, p', rest))
    (proper : t.kind ≠ .error) (q : Position) :
    (t = .eof ∧ rest = [] ∧
        ∃ q', next newlines skip q (bs ++ 10 :: more) = next newlines 0 q' (10 :: more)) ∨
      t.kind ≠ .eof ∧
        ∃ q', next newlines skip q (bs ++ 10 :: more) = (t, q', rest ++ 10 :: more) := by
  induction bs generalizing skip p q with
  | nil =>
    obtain rfl := Nat.le_zero.mp fits
    cases read
    exact .inl ⟨rfl, rfl, q, rfl⟩
  | cons b bs ih =>
    cases skip with
    | succ skip => exact ih (Nat.le_of_succ_le_succ fits) read (q.advance b)
    | zero =>
      have plain := piece_plain b bs
      have steady := piece_append more b bs
      rw [next] at read
      rw [List.cons_append, next]
      cases h : piece b bs with
      | blank width =>
        rw [h] at steady read
        obtain ⟨same, le⟩ := steady trivial
        rw [same]
        exact ih le read (q.advance b)
      | newline =>
        rw [h] at steady read
        rw [(steady trivial).1]
        cases newlines with
        | true =>
          cases read
          exact .inr ⟨by simp, _, rfl⟩
        | false => exact ih (Nat.zero_le _) read (q.advance b)
      | token t' width =>
        rw [h] at steady read plain
        obtain ⟨rfl, -, rfl⟩ : t' = t ∧ _ ∧ bs.drop width = rest := by simpa using read
        obtain ⟨same, le⟩ := steady proper
        have rest : (bs ++ 10 :: more).drop width = bs.drop width ++ 10 :: more :=
          drop_newline more le
        rw [same, ← rest]
        exact .inr ⟨plain.2, _, rfl⟩

theorem eq_cons_of_take {t : Token} {ts left : List Token} (h : take true ts = (t, left))
    (more : t ≠ .eof) : ts = t :: left := by
  cases ts with
  | nil => exact absurd (Prod.mk.inj h).1.symm more
  | cons u us =>
    rw [take, if_neg (by simp)] at h
    obtain ⟨rfl, rfl⟩ := Prod.mk.inj h
    rfl

end Lexer

namespace Input

structure Ended (i : Input) : Prop where
  rest : i.rest = []
  putback : i.putback = none

structure Spent (i : Input) : Prop where
  rest : i.rest = []
  putback : i.putback = some .eof

theorem Ended.unread {i : Input} (h : i.Ended) : (i.unread .eof).Spent := ⟨h.rest, rfl⟩

theorem Spent.ahead {i : Input} (h : i.Spent) : i.ahead = [] := by
  simp [Input.ahead, tokens, h.rest, h.putback, Lexer.tokens, Token.eof]

theorem Spent.next {i j : Input} {t : Token} {phase : Phase} (h : i.Spent)
    (read : i.next phase = (t, j)) : t = .eof ∧ j.Ended := by
  obtain ⟨rest, position, putback⟩ := i
  obtain ⟨rfl, rfl⟩ := h
  cases read
  exact ⟨rfl, rfl, rfl⟩

/-- The reader `j` has ahead of it what `i` has, and then a newline and `more`. -/
structure Leads (more : List UInt8) (i j : Input) : Prop where
  rest : j.rest = i.rest ++ 10 :: more
  putback : j.putback = i.putback
  proper : ∀ t, i.putback = some t → t.kind ≠ .eof

namespace Leads

variable {more : List UInt8} {i j : Input}

theorem unread (h : i.Leads more j) {t : Token} (proper : t.kind ≠ .eof) :
    (i.unread t).Leads more (j.unread t) := by
  refine ⟨h.rest, rfl, ?_⟩
  rintro _ ⟨⟩
  exact proper

theorem ofScript (a b : String) :
    (Input.ofScript a).Leads (Utf8.encode b) (Input.ofScript (a ++ "\n" ++ b)) := by
  refine ⟨?_, rfl, nofun⟩
  simp only [Input.ofScript, Utf8.encode_append, List.append_assoc]
  rfl

/-- Both read the same token, or the shorter script ends here and the newline comes next. -/
theorem next (h : i.Leads more j) {i' : Input} {t : Token} {phase : Phase}
    (read : i.next phase = (t, i')) (proper : t.kind ≠ .error) :
    (t.kind ≠ .eof ∧ ∃ j', j.next phase = (t, j') ∧ i'.Leads more j') ∨
      t = .eof ∧ i'.Ended ∧ (phase.readsNewlines = true →
        j.putback = none ∧ j.tokens = ⟨.newline, "\n"⟩ :: Lexer.tokens 0 more) := by
  obtain ⟨rest, position, putback⟩ := i
  obtain ⟨rest', position', putback'⟩ := j
  obtain ⟨hrest, hputback, open'⟩ := h
  dsimp only at hrest hputback
  subst hrest hputback
  cases putback' with
  | some t' =>
    cases read
    exact .inl ⟨open' _ rfl, _, rfl, rfl, rfl, nofun⟩
  | none =>
    rcases found : Lexer.next phase.readsNewlines 0 position rest with ⟨t', p, left⟩
    simp only [Input.next, found] at read
    obtain ⟨rfl, rfl⟩ := Prod.mk.inj read
    rcases Lexer.next_append more (Nat.zero_le _) found proper position' with
      ⟨rfl, rfl, q, same⟩ | ⟨onward, q, same⟩
    · refine .inr ⟨rfl, ⟨rfl, rfl⟩, fun newlines => ⟨rfl, ?_⟩⟩
      have taken := Lexer.take_tokens true 0 position' (rest ++ 10 :: more)
      rw [← newlines, same, newlines] at taken
      exact Lexer.eq_cons_of_take taken (by decide)
    · refine .inl ⟨onward, ⟨left ++ 10 :: more, q, none⟩, ?_, rfl, rfl, nofun⟩
      simp only [Input.next, same]

end Leads

end Input

end Scriptlet
