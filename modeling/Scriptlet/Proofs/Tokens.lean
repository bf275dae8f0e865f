import Scriptlet.Proofs.Lexing

/-!
The tokens of a script. A script has its tokens whoever reads it: where newlines are blank space a
reader gets the same tokens as where they count, less the newlines, and the position plays no part.
What lies ahead of a reader is therefore a list, and reading takes it from the front.
-/

namespace Scriptlet

namespace Lexer

def Piece.Kinds (P : Token.Kind → Prop) : Piece → Prop
  | .token t _ => P t.kind
  | _ => True

def Piece.Plain : Piece → Prop
  | .token t _ => t.kind ≠ .newline ∧ t.kind ≠ .eof
  | _ => True

theorem ite_kinds {P : Token.Kind → Prop} {p : Prop} [Decidable p] {x y : Piece}
    (hx : x.Kinds P) (hy : y.Kinds P) : (if p then x else y).Kinds P := by
  split
  · exact hx
  · exact hy

section Kinds

/-! Malformed tokens apart, every scanner makes tokens of one kind or of a few. -/

variable {P : Token.Kind → Prop} (error : P .error)
include error

theorem literal_kinds (lit : P .literal) (text : List UInt8) (width : Nat) (rest : List UInt8) :
    (literal text width rest).Kinds P := by
  unfold literal
  split
  · exact ite_kinds error lit
  · exact lit

theorem exponent_kinds (lit : P .literal) (text : List UInt8) (width : Nat) (rest : List UInt8) :
    (exponent text width rest).Kinds P := by
  unfold exponent
  split
  · split
    · exact ite_kinds error (literal_kinds error lit _ _ _)
    · exact literal_kinds error lit _ _ _
  · exact literal_kinds error lit _ _ _

theorem number_kinds (lit : P .literal) (first : UInt8) (bs : List UInt8) :
    (number first bs).Kinds P := by
  have hex : ∀ rest, (hexadecimal rest).Kinds P := fun rest =>
    ite_kinds error (literal_kinds error lit _ _ _)
  unfold number
  split
  · exact ite_kinds (hex _) (exponent_kinds error lit _ _ _)
  · exact exponent_kinds error lit _ _ _

theorem string_kinds (lit : P .literal) (quote : UInt8) (value : List UInt8) (width : Nat)
    (q : Quoted) (bs : List UInt8) : (string quote value width q bs).Kinds P := by
  induction bs generalizing value width q with
  | nil => cases q <;> exact error
  | cons b bs ih =>
    cases q with
    | plain =>
      refine ite_kinds error (ite_kinds lit ?_)
      exact ite_kinds (ih _ _ _) (ih _ _ _)
    | escape => exact ite_kinds (ih _ _ _) (ite_kinds (ih _ _ _) (ih _ _ _))
    | digits wanted n =>
      refine ite_kinds error (ite_kinds (ih _ _ _) ?_)
      split
      · exact ih _ _ _
      · exact error

theorem slash_kinds (div : P (.operator .div)) (bs : List UInt8) : (slash bs).Kinds P := by
  unfold slash
  split
  · trivial
  · split
    · trivial
    · exact error
  · exact div

end Kinds

theorem longest_kinds {P : Token.Kind → Prop} {short : Piece} (bs : List UInt8)
    {longer : List (UInt8 × Token.Kind)} (h : short.Kinds P)
    (more : ∀ entry ∈ longer, P entry.2) : (longest short bs longer).Kinds P := by
  induction longer with
  | nil => exact h
  | cons entry rest ih =>
    rw [longest]
    split
    · exact more entry (by simp)
    · exact ih fun e he => more e (by simp [he])

/-- Only names depend on what a word is. -/
theorem piece_kinds {P : Token.Kind → Prop}
    (other : ∀ kind, kind ≠ .newline → kind ≠ .eof → kind ≠ .identifier → P kind) (b : UInt8)
    (bs : List UInt8) (named : isNameStart b = true → (word b bs).Kinds P) :
    (piece b bs).Kinds P := by
  have error : P .error := other _ nofun nofun nofun
  have lit : P .literal := other _ nofun nofun nofun
  unfold piece
  split
  · trivial
  · exact slash_kinds error (other _ nofun nofun nofun) bs
  iterate 8 exact other _ nofun nofun nofun
  iterate 8
    refine longest_kinds bs (other _ nofun nofun nofun) ?_
    simp only [List.mem_cons, List.not_mem_nil, or_false, forall_eq_or_imp, forall_eq]
    simp [other]
  iterate 2 exact string_kinds error lit _ _ _ _ _
  refine ite_kinds trivial (ite_kinds (number_kinds error lit b bs) ?_)
  split
  · exact named ‹_›
  · exact error

theorem word_plain (first : UInt8) (bs : List UInt8) :
    (word first bs).Kinds fun kind => kind ≠ .newline ∧ kind ≠ .eof := by
  unfold word
  dsimp only
  split
  · rename_i kind found
    have listed := List.mem_of_find?_eq_some found
    simp only [List.mem_cons, List.not_mem_nil, or_false] at listed
    rcases listed with rfl | rfl | rfl | rfl | rfl <;> exact ⟨by simp, by simp⟩
  · split <;> exact ⟨by simp, by simp⟩

theorem piece_plain (b : UInt8) (bs : List UInt8) : (piece b bs).Plain :=
  piece_kinds (fun _ newline eof _ => ⟨newline, eof⟩) b bs fun _ => word_plain b bs

/-- A name starts with an octet that names can start with. -/
theorem isNameStart_of_piece {b : UInt8} {bs : List UInt8} {t : Token} {width : Nat}
    (h : piece b bs = .token t width) (named : t.kind = .identifier) : isNameStart b = true := by
  cases start : isNameStart b with
  | true => rfl
  | false =>
    have kinds := piece_kinds (P := (· ≠ .identifier)) (fun _ _ _ other => other) b bs
      (by simp [start])
    rw [h] at kinds
    exact absurd named kinds

/-- Where newlines do not count a reader gets what one gets where they do, or what that one gets
behind a newline. -/
theorem next_past_newline {t : Token} {skip : Nat} {p q : Position} {bs rest : List UInt8}
    (h : next true skip p bs = (t, q, rest)) :
    next false skip p bs = (t, q, rest) ∨
      t.kind = .newline ∧ next false skip p bs = next false 0 q rest := by
  induction bs generalizing skip p with
  | nil =>
    cases skip <;>
    · cases h
      exact .inl rfl
  | cons b bs ih =>
    cases skip with
    | succ skip => exact ih h
    | zero =>
      rw [next] at h ⊢
      cases hp : piece b bs with
      | blank width =>
        rw [hp] at h
        exact ih h
      | newline =>
        rw [hp] at h
        cases h
        exact .inr ⟨rfl, rfl⟩
      | token t' width =>
        rw [hp] at h
        cases h
        exact .inl rfl

/-! ### Lists of tokens -/

/-- The tokens of a script, newlines among them, up to its end; `skip` counts the octets of a piece
that are still to come. -/
def tokens : Nat → List UInt8 → List Token
  | _, [] => []
  | skip + 1, _ :: bs => tokens skip bs
  | 0, b :: bs =>
    match piece b bs with
    | .blank width => tokens width bs
    | .newline => ⟨.newline, "\n"⟩ :: tokens 0 bs
    | .token t width => t :: tokens width bs

theorem tokens_drop (skip : Nat) (bs : List UInt8) : tokens skip bs = tokens 0 (bs.drop skip) := by
  induction bs generalizing skip with
  | nil => simp [tokens]
  | cons b bs ih =>
    cases skip with
    | zero => rfl
    | succ skip => exact ih skip

def take (newlines : Bool) : List Token → Token × List Token
  | [] => (.eof, [])
  | t :: ts => if t.kind = .newline ∧ newlines = false then take newlines ts else (t, ts)

/-- A reader of octets takes what a reader of tokens takes. -/
theorem take_tokens (newlines : Bool) (skip : Nat) (p : Position) (bs : List UInt8) :
    take newlines (tokens skip bs) =
      ((next newlines skip p bs).1, tokens 0 (next newlines skip p bs).2.2) := by
  induction bs generalizing skip p with
  | nil => rfl
  | cons b bs ih =>
    cases skip with
    | succ skip => exact ih skip (p.advance b)
    | zero =>
      have plain := piece_plain b bs
      rw [tokens, next]
      cases h : piece b bs with
      | blank width => exact ih width (p.advance b)
      | newline =>
        cases newlines with
        | true => rfl
        | false => exact ih 0 (p.advance b)
      | token t width =>
        rw [h] at plain
        simp only [take, plain.1, false_and, if_false]
        rw [tokens_drop]

theorem not_eof_of_mem_tokens {t : Token} {skip : Nat} {bs : List UInt8} (h : t ∈ tokens skip bs) :
    t.kind ≠ .eof := by
  induction bs generalizing skip with
  | nil => cases h
  | cons b bs ih =>
    cases skip with
    | succ skip => exact ih h
    | zero =>
      have plain := piece_plain b bs
      rw [tokens] at h
      cases hp : piece b bs with
      | blank width =>
        rw [hp] at h
        exact ih h
      | newline =>
        rw [hp] at h
        rcases List.mem_cons.mp h with rfl | h
        · simp
        · exact ih h
      | token t' width =>
        rw [hp] at h plain
        rcases List.mem_cons.mp h with rfl | h
        · exact plain.2
        · exact ih h

/-- What is taken stands behind newlines, or behind nothing where newlines count. -/
theorem take_split (newlines : Bool) (ts : List Token) :
    ∃ gap, (∀ t ∈ gap, t.kind = .newline) ∧ (newlines = true → gap = []) ∧
      (take newlines ts = (.eof, []) ∧ ts = gap ∨
        ∃ t rest, take newlines ts = (t, rest) ∧ ts = gap ++ t :: rest) := by
  induction ts with
  | nil => exact ⟨[], by simp, fun _ => rfl, .inl ⟨rfl, rfl⟩⟩
  | cons t ts ih =>
    by_cases skipped : t.kind = .newline ∧ newlines = false
    · obtain ⟨gap, all, none, found⟩ := ih
      rw [take, if_pos skipped]
      refine ⟨t :: gap, ?_, by simp [skipped.2], ?_⟩
      · simpa [skipped.1] using all
      · simpa using found
    · exact ⟨[], by simp, fun _ => rfl, .inr ⟨t, ts, by rw [take, if_neg skipped], rfl⟩⟩

end Lexer

namespace Input

def tokens (i : Input) : List Token := Lexer.tokens 0 i.rest

theorem take_tokens {i : Input} (h : i.putback = none) (phase : Phase) :
    Lexer.take phase.readsNewlines i.tokens =
      ((i.next phase).1, (i.next phase).2.tokens) := by
  obtain ⟨rest, position, putback⟩ := i
  obtain rfl : putback = none := h
  exact Lexer.take_tokens _ 0 position rest

theorem not_eof_of_mem {i : Input} {t : Token} (h : t ∈ i.tokens) : t.kind ≠ .eof :=
  Lexer.not_eof_of_mem_tokens h

section First

variable {i : Input} (fresh : i.putback = none) (phase : Phase)
include fresh

theorem next_of_nil (h : i.tokens = []) : ∃ j, i.next phase = (.eof, j) ∧ j.tokens = [] := by
  have taken := take_tokens fresh phase
  rw [h] at taken
  obtain ⟨first, rest⟩ := Prod.mk.inj taken
  exact ⟨_, Prod.ext first.symm rfl, rest.symm⟩

/-- Where newlines count a reader gets the first of the tokens. -/
theorem next_of_cons {t : Token} {ts : List Token} (newlines : phase.readsNewlines = true)
    (h : i.tokens = t :: ts) :
    ∃ j, i.next phase = (t, j) ∧ j.putback = none ∧ j.tokens = ts ∧ t.kind ≠ .eof := by
  have taken := take_tokens fresh phase
  rw [h, Lexer.take, if_neg (by simp [newlines])] at taken
  obtain ⟨first, rest⟩ := Prod.mk.inj taken
  refine ⟨_, Prod.ext first.symm rfl, i.putback_next phase, rest.symm, ?_⟩
  exact not_eof_of_mem (i := i) (by simp [h])

end First

/-- The tokens that a reader has ahead of it, the one put back among them. The end of the script
is no token. -/
def ahead (i : Input) : List Token := (i.putback.filter (·.kind ≠ .eof)).toList ++ i.tokens

theorem ahead_eq_tokens {i : Input} (h : i.putback = none) : i.ahead = i.tokens := by
  simp [ahead, h]

theorem ahead_unread (i : Input) (t : Token) :
    (i.unread t).ahead = if t.kind = .eof then i.tokens else t :: i.tokens := by
  by_cases h : t.kind = .eof <;> simp [ahead, unread, tokens, h, Option.filter]

/-- Reading takes a token from what is ahead, or finds the end of the script. -/
theorem ahead_next {i j : Input} {t : Token} {phase : Phase} (h : i.next phase = (t, j)) :
    ∃ gap, (∀ t ∈ gap, t.kind = .newline) ∧ (phase.readsNewlines = true → gap = []) ∧
      (t.kind = .eof ∧ i.ahead = gap ++ j.ahead ∨
        t.kind ≠ .eof ∧ i.ahead = gap ++ t :: j.ahead) := by
  have empty : j.putback = none := by
    have := i.putback_next phase
    rwa [h] at this
  cases hi : i.putback with
  | some t' =>
    obtain ⟨rest, position, putback⟩ := i
    obtain rfl : putback = some t' := hi
    obtain ⟨rfl, rfl⟩ := Prod.mk.inj h
    refine ⟨[], by simp, fun _ => rfl, ?_⟩
    by_cases ends : t'.kind = .eof
    · exact .inl ⟨ends, by simp [ahead, tokens, ends, Option.filter]⟩
    · exact .inr ⟨ends, by simp [ahead, tokens, ends, Option.filter]⟩
  | none =>
    have taken := take_tokens hi phase
    rw [h] at taken
    rw [ahead_eq_tokens hi, ahead_eq_tokens empty]
    obtain ⟨gap, all, none, ⟨last, rfl⟩ | ⟨t', rest, first, split⟩⟩ :=
      Lexer.take_split phase.readsNewlines i.tokens
    · obtain ⟨rfl, left⟩ := Prod.mk.inj (last.symm.trans taken)
      exact ⟨i.tokens, all, none, .inl ⟨rfl, by simp [← left]⟩⟩
    · obtain ⟨rfl, rfl⟩ := Prod.mk.inj (first.symm.trans taken)
      have inside : t' ∈ i.tokens := by simp [split]
      exact ⟨gap, all, none, .inr ⟨Lexer.not_eof_of_mem_tokens inside, split⟩⟩

end Input

end Scriptlet
