import Scriptlet.Proofs.Numerals

/-!
Lexing inverts printing. A lexeme is a token together with a way to spell it; lexemes printed with
blanks between them are read back as their tokens. The one dependence between neighbours is that a
name in front of an opening parenthesis is the name of a function.
-/

namespace Scriptlet

inductive Literal where
  | quoted (value : String)
  | number (text : String) (numeral : (Numeral.readUnsigned false text.toList).isSome = true)
  deriving DecidableEq, Repr

namespace Literal

def spelling : Literal → String
  | .quoted value => quote value
  | .number text _ => text

def value : Literal → String
  | .quoted value => value
  | .number text _ => String.ofList (Lexer.smallX text.toList)

end Literal

inductive Lexeme where
  | symbol (kind : Token.Kind) (fixed : kind.isSymbol = true)
  | name (n : Name)
  | function (n : Name)
  | literal (l : Literal)
  deriving DecidableEq, Repr

namespace Lexeme

def spelling : Lexeme → String
  | .symbol kind _ => kind.spelling
  | .name n => n.text
  | .function n => n.text
  | .literal l => l.spelling

def token : Lexeme → Token
  | .symbol kind _ => .symbol kind
  | .name n => ⟨.identifier, n.text⟩
  | .function n => ⟨.function, n.text⟩
  | .literal l => ⟨.literal, l.value⟩

def opens : Lexeme → Bool
  | .symbol kind _ => kind = .lparen
  | _ => false

/-- Whether the first of some lexemes is an opening parenthesis; `after` tells for what is behind
all of them. -/
def opening (after : Bool) : List Lexeme → Bool
  | [] => after
  | l :: _ => l.opens

def Before : Lexeme → Bool → Prop
  | .name _, opens => opens = false
  | .function _, opens => opens = true
  | _, _ => True

def Spaced (after : Bool) : List Lexeme → Prop
  | [] => True
  | l :: ls => l.Before (opening after ls) ∧ Spaced after ls

def render : List Lexeme → String
  | [] => ""
  | [l] => l.spelling
  | l :: ls => l.spelling ++ " " ++ render ls

end Lexeme

structure Spacing where
  text : String
  nonempty : text ≠ ""
  blank : text.toList.all (fun c => c = ' ' || c = '\t') = true
  deriving DecidableEq, Repr

namespace Spacing

def space : Spacing := ⟨" ", by decide, by decide⟩

/-- Texts with blanks between neighbours; `gap` tells which blanks stand behind each. -/
def join (gap : Nat → Spacing) : List String → String
  | [] => ""
  | [text] => text
  | text :: next :: texts =>
    text ++ (gap 0).text ++ join (fun n => gap (n + 1)) (next :: texts)

end Spacing

open Lexer Utf8

def Lexer.opensNext (rest : List UInt8) : Bool := (rest.dropWhile isCallBlank).head? = some 40

theorem Input.streams_of_next {p p' : Position} {bytes rest : List UInt8} {t : Token}
    (h : ∀ nl, Lexer.next nl 0 p bytes = (t, p', rest)) :
    Streams ⟨bytes, p, none⟩ [t] ⟨rest, p', none⟩ := by
  refine ⟨⟨rest, p', none⟩, fun phase => ?_, streams_refl _⟩
  simp [Input.next, h]

theorem Input.streams_blanks (p : Position) (rest : List UInt8) :
    Streams ⟨rest.dropWhile isCallBlank, p.pass (rest.takeWhile isCallBlank), none⟩ []
      ⟨rest, p, none⟩ := by
  intro phase
  simp only [Input.next]
  rw [next_blanks rest]

/-- Blanks make no tokens. -/
theorem Input.streams_gap {gap : List UInt8} (blank : ∀ b ∈ gap, isCallBlank b = true)
    (p : Position) (rest : List UInt8) :
    Streams ⟨gap ++ rest, p, none⟩ [] ⟨rest, p.pass gap, none⟩ := by
  induction gap generalizing p with
  | nil => exact streams_refl _
  | cons b gap ih =>
    intro phase
    refine Eq.trans ?_ (ih (fun d hd => blank d (by simp [hd])) (p.advance b) phase)
    simp only [Input.next, List.cons_append]
    rw [next_blank (blank b (by simp))]

theorem Lexer.next_of_opensNext {nl : Bool} {p : Position} {rest : List UInt8}
    (h : opensNext rest = true) : (next nl 0 p rest).1 = .symbol .lparen := by
  simp only [opensNext, decide_eq_true_eq] at h
  rw [next_blanks]
  cases hrest : rest.dropWhile isCallBlank with
  | nil => simp [hrest] at h
  | cons b more =>
    obtain rfl : b = 40 := by simpa [hrest] using h
    rfl

theorem Lexer.opensNext_of_next {nl : Bool} {p p' : Position} {rest more : List UInt8} {t : Token}
    (h : next nl 0 p rest = (t, p', more)) (other : t.kind ≠ .lparen) : opensNext rest = false := by
  cases opens : opensNext rest with
  | false => rfl
  | true =>
    have paren : (next nl 0 p rest).1 = .symbol .lparen := next_of_opensNext opens
    rw [h] at paren
    exact absurd (congrArg Token.kind paren) other

namespace Lexeme

/-- One lexeme, with a blank or nothing behind it. -/
theorem streams (l : Lexeme) (p : Position) {rest : List UInt8} (gap : Gap rest)
    (before : l.Before (opensNext rest)) :
    Input.Streams ⟨encode l.spelling ++ rest, p, none⟩ [l.token]
      ⟨rest, p.pass (encode l.spelling), none⟩ := by
  cases l with
  | symbol kind fixed => exact Input.streams_of_next fun nl => next_symbol fixed gap
  | literal l =>
    cases l with
    | quoted value => exact Input.streams_of_next fun nl => next_quote value
    | number text numeral => exact Input.streams_of_next fun nl => next_numeral numeral gap.stops
  | name n =>
    have kind : nameKind rest = .identifier := by simpa [Before, opensNext, nameKind] using before
    have read := Input.streams_of_next fun _ => next_name n gap (p := p)
    rw [kind] at read
    exact read.append (Input.streams_blanks _ rest)
  | function n =>
    have kind : nameKind rest = .function := by simpa [Before, opensNext, nameKind] using before
    have read := Input.streams_of_next fun _ => next_name n gap (p := p)
    rw [kind] at read
    exact read.append (Input.streams_blanks _ rest)

theorem opensNext_spelling (l : Lexeme) {rest : List UInt8} (gap : Gap rest) :
    opensNext (encode l.spelling ++ rest) = l.opens := by
  cases l with
  | symbol kind fixed =>
    by_cases paren : kind = .lparen
    · subst paren
      have bytes : encode "(" = [40] := by decide
      simp [spelling, Token.Kind.spelling, bytes, opensNext, opens, isCallBlank]
    · have read : next false 0 {} (encode kind.spelling ++ rest) = _ := next_symbol fixed gap
      refine (opensNext_of_next read paren).trans ?_
      simp [opens, paren]
  | literal l =>
    cases l with
    | quoted value =>
      have read : next false 0 {} (encode (quote value) ++ rest) = _ := next_quote value
      exact opensNext_of_next read (by simp)
    | number text numeral =>
      have read : next false 0 {} (encode text ++ rest) = _ := next_numeral numeral gap.stops
      exact opensNext_of_next read (by simp)
  | name n =>
    have read : next false 0 {} (encode n.text ++ rest) = _ := next_name n gap
    refine opensNext_of_next read ?_
    unfold nameKind
    split <;> simp
  | function n =>
    have read : next false 0 {} (encode n.text ++ rest) = _ := next_name n gap
    refine opensNext_of_next read ?_
    unfold nameKind
    split <;> simp

end Lexeme

namespace Spacing

theorem mem_octets (g : Spacing) {b : UInt8} (h : b ∈ encode g.text) : b = 32 ∨ b = 9 := by
  obtain ⟨c, inside, here⟩ := List.mem_flatMap.mp h
  have spaceOrTab := List.all_eq_true.mp g.blank c inside
  simp only [Bool.or_eq_true, decide_eq_true_eq] at spaceOrTab
  rcases spaceOrTab with rfl | rfl
  · have here : b ∈ [32] := here
    exact .inl (List.mem_singleton.mp here)
  · have here : b ∈ [9] := here
    exact .inr (List.mem_singleton.mp here)

theorem callBlank (g : Spacing) : ∀ b ∈ encode g.text, isCallBlank b = true := by
  intro b hb
  rcases g.mem_octets hb with rfl | rfl <;> rfl

theorem octets_ne_nil (g : Spacing) : encode g.text ≠ [] := by
  intro none
  have text := congrArg decode none
  rw [decode_encode] at text
  exact g.nonempty text

theorem gap (g : Spacing) (rest : List UInt8) : Gap (encode g.text ++ rest) := by
  intro b hb
  cases octets : encode g.text with
  | nil => exact absurd octets g.octets_ne_nil
  | cons d more =>
    rw [octets] at hb
    obtain rfl : d = b := Option.some.inj hb
    exact g.mem_octets (by rw [octets]; exact List.mem_cons_self)

theorem opensNext_gap (g : Spacing) (rest : List UInt8) :
    opensNext (encode g.text ++ rest) = opensNext rest := by
  rw [opensNext, List.dropWhile_append_of_pos g.callBlank, opensNext]

end Spacing

namespace Lexeme

theorem encode_join (gap : Nat → Spacing) (l next : Lexeme) (ls : List Lexeme)
    (rest : List UInt8) :
    encode (Spacing.join gap ((l :: next :: ls).map spelling)) ++ rest =
      encode l.spelling ++ (encode (gap 0).text ++
        (encode (Spacing.join (fun n => gap (n + 1)) ((next :: ls).map spelling)) ++ rest)) := by
  simp [Spacing.join]

theorem opensNext_join {ls : List Lexeme} {rest : List UInt8} (stop : Gap rest)
    (gap : Nat → Spacing) :
    opensNext (encode (Spacing.join gap (ls.map spelling)) ++ rest) =
      opening (opensNext rest) ls := by
  match ls with
  | [] => rfl
  | [l] => exact l.opensNext_spelling stop
  | l :: next :: ls =>
    rw [encode_join]
    exact l.opensNext_spelling ((gap 0).gap _)

/-- Lexemes that stand where they may are read back as their tokens, whatever blanks there are
between them. -/
theorem streams_join {ls : List Lexeme} {rest : List UInt8} (stop : Gap rest) (gap : Nat → Spacing)
    (p : Position) (spaced : Spaced (opensNext rest) ls) :
    Input.Streams ⟨encode (Spacing.join gap (ls.map spelling)) ++ rest, p, none⟩ (ls.map token)
      ⟨rest, p.pass (encode (Spacing.join gap (ls.map spelling))), none⟩ := by
  induction ls generalizing p gap with
  | nil => exact Input.streams_refl _
  | cons l ls ih =>
    obtain ⟨before, others⟩ := spaced
    cases ls with
    | nil => exact l.streams p stop before
    | cons next ls =>
      have more := ih (fun n => gap (n + 1))
        ((p.pass (encode l.spelling)).pass (encode (gap 0).text)) others
      generalize behind :
        encode (Spacing.join (fun n => gap (n + 1)) ((next :: ls).map spelling)) ++ rest = bytes
        at more
      have opens : opensNext (encode (gap 0).text ++ bytes) = next.opens := by
        rw [(gap 0).opensNext_gap, ← behind]
        exact opensNext_join stop _
      have first := l.streams p ((gap 0).gap bytes) (opens ▸ before)
      have blanks := Input.streams_gap (gap 0).callBlank (p.pass (encode l.spelling)) bytes
      have position : p.pass (encode (Spacing.join gap ((l :: next :: ls).map spelling))) =
          ((p.pass (encode l.spelling)).pass (encode (gap 0).text)).pass
            (encode (Spacing.join (fun n => gap (n + 1)) ((next :: ls).map spelling))) := by
        have octets := encode_join gap l next ls []
        simp only [List.append_nil] at octets
        rw [octets, Position.pass_append, Position.pass_append]
      rw [encode_join, behind, position]
      exact first.append (blanks.append more)

theorem render_eq_join (ls : List Lexeme) :
    render ls = Spacing.join (fun _ => .space) (ls.map spelling) := by
  match ls with
  | [] => rfl
  | [l] => rfl
  | l :: next :: ls =>
    show l.spelling ++ " " ++ render (next :: ls) = _
    rw [render_eq_join (next :: ls)]
    rfl

theorem streams_render {ls : List Lexeme} {rest : List UInt8} (gap : Gap rest) (p : Position)
    (spaced : Spaced (opensNext rest) ls) :
    Input.Streams ⟨encode (render ls) ++ rest, p, none⟩ (ls.map token)
      ⟨rest, p.pass (encode (render ls)), none⟩ := by
  rw [render_eq_join]
  exact streams_join gap _ p spaced

/-- The same with a blank behind them. -/
theorem streams_render_blank {ls : List Lexeme} {rest : List UInt8} (p : Position)
    (spaced : Spaced (opensNext rest) ls) :
    Input.Streams ⟨encode (render ls ++ " ") ++ rest, p, none⟩ (ls.map token)
      ⟨rest, p.pass (encode (render ls ++ " ")), none⟩ := by
  have blank : encode (render ls ++ " ") = encode (render ls) ++ [32] := encode_append _ _
  have spaced : Spaced (opensNext (32 :: rest)) ls := spaced
  have skipped := Input.streams_gap Spacing.space.callBlank (p.pass (encode (render ls))) rest
  have read := (streams_render (Spacing.space.gap rest) p spaced).append skipped
  rw [List.append_nil] at read
  rw [blank, Position.pass_append, List.append_assoc]
  exact read

end Lexeme

end Scriptlet
