import Scriptlet.Proofs.Lexeme

/-!
Tokens printed and read back. Any list of tokens can be printed, operators and keywords by their
symbols, names as they are and literals in double quotes, with any blanks between neighbours; the
lexer finds these tokens in the text, and then its end. Only names in front of parentheses have to
agree with their place.
-/

namespace Scriptlet

open Utf8

namespace Token

/-- A token that a script can hold: a symbol with its spelling, a name, or a literal of any text. -/
def Printable (t : Token) : Prop :=
  match t.kind with
  | .literal => True
  | .identifier | .function => isName t.text = true
  | kind => kind.isSymbol = true ∧ t.text = kind.spelling

instance (t : Token) : Decidable t.Printable := by
  unfold Printable
  split <;> infer_instance

def print (t : Token) : String :=
  match t.kind with
  | .literal => quote t.text
  | .identifier | .function => t.text
  | kind => kind.spelling

/-- An opening parenthesis stands behind every name of a function and behind no other name. -/
def Placed : List Token → Prop
  | [] => True
  | t :: ts =>
    (t.kind = .function → ts.head?.map kind = some .lparen) ∧
      (t.kind = .identifier → ts.head?.map kind ≠ some .lparen) ∧ Placed ts

instance Placed.decidable : (ts : List Token) → Decidable (Placed ts)
  | [] => .isTrue trivial
  | _ :: ts =>
    have := Placed.decidable ts
    inferInstanceAs (Decidable (_ ∧ _ ∧ _))

/-- A printed token is a lexeme. -/
theorem exists_lexeme {t : Token} (h : t.Printable) :
    ∃ l : Lexeme, l.token = t ∧ l.spelling = t.print := by
  obtain ⟨kind, text⟩ := t
  cases kind with
  | literal => exact ⟨.literal (.quoted text), rfl, rfl⟩
  | identifier => exact ⟨.name ⟨text, h⟩, rfl, rfl⟩
  | function => exact ⟨.function ⟨text, h⟩, rfl, rfl⟩
  | _ =>
    obtain ⟨fixed, spelt⟩ := h
    exact ⟨.symbol _ fixed, congrArg (Token.mk _) spelt.symm, rfl⟩

end Token

namespace Lexeme

theorem opens_eq (l : Lexeme) : l.opens = decide (l.token.kind = .lparen) := by
  cases l with
  | symbol kind fixed => rfl
  | name n => rfl
  | function n => rfl
  | literal l => rfl

theorem opening_eq (ls : List Lexeme) :
    opening false ls = decide ((ls.map token).head?.map Token.kind = some .lparen) := by
  cases ls with
  | nil => rfl
  | cons l ls => simp [opening, opens_eq]

theorem spaced_of_placed {ls : List Lexeme} (h : Token.Placed (ls.map token)) :
    Spaced false ls := by
  induction ls with
  | nil => trivial
  | cons l ls ih =>
    obtain ⟨called, named, others⟩ := h
    refine ⟨?_, ih others⟩
    rw [opening_eq]
    cases l with
    | symbol kind fixed => trivial
    | literal l => trivial
    | name n => exact decide_eq_false (named rfl)
    | function n => exact decide_eq_true (called rfl)

theorem exists_lexemes {ts : List Token} (h : ∀ t ∈ ts, t.Printable) :
    ∃ ls : List Lexeme, ls.map token = ts ∧ ls.map spelling = ts.map Token.print := by
  induction ts with
  | nil => exact ⟨[], rfl, rfl⟩
  | cons t ts ih =>
    obtain ⟨l, rfl, spelling⟩ := Token.exists_lexeme (h t (by simp))
    obtain ⟨ls, rfl, spellings⟩ := ih fun u hu => h u (by simp [hu])
    exact ⟨l :: ls, rfl, by simp [spelling, spellings]⟩

end Lexeme

namespace Input

/-- The next tokens as `phase` reads them, so many as are asked for. -/
def upcoming (phase : Phase) : Nat → Input → List Token
  | 0, _ => []
  | n + 1, i => (i.next phase).1 :: upcoming phase n (i.next phase).2

theorem upcoming_of_next {i k : Input} {phase : Phase} (h : i.next phase = k.next phase) (n : Nat) :
    i.upcoming phase n = k.upcoming phase n := by
  cases n with
  | zero => rfl
  | succ n => rw [upcoming, upcoming, h]

theorem Streams.upcoming {ts : List Token} {i k : Input} (h : i.Streams ts k) (phase : Phase)
    (n : Nat) : i.upcoming phase (ts.length + n) = ts ++ k.upcoming phase n := by
  induction ts generalizing i with
  | nil =>
    rw [List.length_nil, Nat.zero_add, List.nil_append]
    exact upcoming_of_next (h phase) n
  | cons t ts ih =>
    obtain ⟨j, taken, rest⟩ := h
    rw [List.length_cons, Nat.add_right_comm, Input.upcoming, taken phase, ih rest]
    rfl

/-- At the end of the script there is nothing but the end. -/
theorem upcoming_ended (p : Position) (phase : Phase) (n : Nat) :
    Input.upcoming phase n ⟨[], p, none⟩ = List.replicate n .eof := by
  induction n with
  | zero => rfl
  | succ n ih =>
    rw [List.replicate_succ, ← ih]
    rfl

/-- Lexing inverts printing: the script that tokens are printed to has these tokens, whatever
blanks there are between them, and then it ends. -/
theorem upcoming_printed (gap : Nat → Spacing) (ts : List Token) (printable : ∀ t ∈ ts, t.Printable)
    (placed : Token.Placed ts) (phase : Phase) :
    (ofScript (Spacing.join gap (ts.map Token.print))).upcoming phase (ts.length + 1) =
      ts ++ [.eof] := by
  obtain ⟨ls, rfl, spellings⟩ := Lexeme.exists_lexemes printable
  have stop : Lexer.Gap [] := nofun
  have spaced : Lexeme.Spaced (Lexer.opensNext []) ls := Lexeme.spaced_of_placed placed
  have streams := Lexeme.streams_join stop gap {} spaced
  rw [spellings, List.append_nil] at streams
  rw [ofScript, streams.upcoming, upcoming_ended]
  rfl

theorem upcoming_printed_call :
    (ofScript "f\t( x / \"a\\n\\\"\" )").upcoming .expr 7 =
      [⟨.function, "f"⟩, .symbol .lparen, ⟨.identifier, "x"⟩, .symbol (.operator .div),
        ⟨.literal, "a\n\""⟩, .symbol .rparen, .eof] :=
  upcoming_printed (fun n => if n = 0 then ⟨"\t", by decide, by decide⟩ else .space)
    [⟨.function, "f"⟩, .symbol .lparen, ⟨.identifier, "x"⟩, .symbol (.operator .div),
      ⟨.literal, "a\n\""⟩, .symbol .rparen] (by decide) (by decide) .expr

end Input

end Scriptlet
