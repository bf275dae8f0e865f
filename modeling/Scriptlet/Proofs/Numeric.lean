import Scriptlet.Number.Numeral
import Scriptlet.Proofs.Grammar
import Scriptlet.Proofs.Lexing

/-!
Which texts are numbers. They are the language of a grammar, and the reader of numerals, the
recognizer of the grammar and the plain language agree on every text: each alternative of the
grammar either takes a numeral as a whole or does not fit it at all, so nothing is lost where the
recognizer settles on the first that fits.
-/

namespace Scriptlet

namespace Grammar

open Digits

def sign : Grammar := alt (char '+') (char '-')

def exponent : Grammar :=
  seq (alt (char 'e') (char 'E')) (seq (maybe sign) (many Char.isDigit))

def hexInteger : Grammar :=
  seq (maybe sign) (seq (char '0') (seq (alt (char 'x') (char 'X')) (many isHexDigit)))

/-- Digits with a point behind or among them, or a point in front of digits. -/
def mantissa : Grammar :=
  alt (seq (many Char.isDigit) (seq (char '.') (star (one Char.isDigit))))
    (seq (char '.') (many Char.isDigit))

def decimalFloat : Grammar :=
  alt (seq (maybe sign) (seq mantissa (maybe exponent)))
    (seq (maybe sign) (seq (many Char.isDigit) exponent))

def decimalInteger : Grammar := seq (maybe sign) (many Char.isDigit)

def numeral : Grammar := alt hexInteger (alt decimalFloat decimalInteger)

theorem of_uses_numeral {c : Char} (h : numeral.uses c = true) :
    isHexDigit c = true ∨ c ∈ ['x', 'X', '.', '+', '-'] := by
  have hex : c.isDigit = true → isHexDigit c = true := fun digit => by simp [isHexDigit, digit]
  by_cases digit : isHexDigit c = true
  · exact .inl digit
  · have letters : c ≠ 'e' ∧ c ≠ 'E' := by
      constructor <;> rintro rfl <;> exact digit rfl
    have zero : c ≠ '0' := by
      rintro rfl
      exact digit rfl
    right
    simp only [numeral, hexInteger, decimalFloat, decimalInteger, mantissa, exponent, sign, maybe,
      many, char, uses, mt hex digit, digit, letters, zero, decide_false, Bool.or_false,
      Bool.false_or, Bool.or_eq_true, decide_eq_true_eq] at h
    simp only [List.mem_cons, List.not_mem_nil, or_false]
    tauto

end Grammar

namespace Numeral

open Grammar Digits

variable {cs text ws fs es : List Char} {negative : Bool}

/-! ### Signs -/

def Unsigned (text : List Char) : Prop := ∀ c ∈ text.head?, c ≠ '+' ∧ c ≠ '-'

theorem mem_sign : text ∈ (maybe sign).language ↔ text = ['+'] ∨ text = ['-'] ∨ text = [] := by
  rw [mem_maybe, sign, mem_alt, mem_char, mem_char, or_assoc]

theorem Unsigned.split (h : Unsigned cs) : splitSign cs = (false, cs) := by
  unfold splitSign
  split
  · exact absurd rfl (h _ rfl).2
  · exact absurd rfl (h _ rfl).1
  · rfl

theorem Unsigned.split_signed (unsigned : Unsigned cs) (h : text ∈ (maybe sign).language) :
    (splitSign (text ++ cs)).2 = cs := by
  rcases mem_sign.mp h with rfl | rfl | rfl
  · rfl
  · rfl
  · rw [List.nil_append, unsigned.split]

theorem run_sign (cs : List Char) : (maybe sign).run cs = some (splitSign cs).2 := by
  rw [run_maybe]
  congr 1
  unfold splitSign
  split
  · rfl
  · rfl
  · rename_i minus plus
    cases cs with
    | nil => rfl
    | cons c cs =>
      have p : c ≠ '+' := fun h => plus cs (by rw [h])
      have m : c ≠ '-' := fun h => minus cs (by rw [h])
      simp [sign, run, char, p, m]

theorem run_signed (g : Grammar) (cs : List Char) :
    (seq (maybe sign) g).run cs = g.run (splitSign cs).2 :=
  run_seq_of_some (run_sign cs)

theorem digit_unsigned {c : Char} (h : c.isDigit = true) : c ≠ '+' ∧ c ≠ '-' := by
  constructor
  · rintro rfl
    cases h
  · rintro rfl
    cases h

/-- Digits have no sign in front. -/
theorem digits_unsigned (nonempty : ws ≠ []) (all : ws.all Char.isDigit = true) (rest : List Char) :
    Unsigned (ws ++ rest) := by
  cases ws with
  | nil => exact absurd rfl nonempty
  | cons w ws =>
    rw [List.all_cons, Bool.and_eq_true] at all
    rintro c ⟨⟩
    exact digit_unsigned all.1

theorem unsigned_point (rest : List Char) : Unsigned ('.' :: rest) := by
  rintro c ⟨⟩
  decide

/-! ### Exponents -/

theorem mem_exponent : text ∈ exponent.language ↔
    ∃ e sign' digits, text = e :: (sign' ++ digits) ∧ (e = 'e' ∨ e = 'E') ∧
      sign' ∈ (maybe sign).language ∧ digits ≠ [] ∧ digits.all Char.isDigit = true := by
  simp only [exponent, mem_seq, mem_alt, mem_char, mem_many]
  constructor
  · rintro ⟨_, letter, _, ⟨sign', signed, digits, ⟨nonempty, all⟩, rfl⟩, rfl⟩
    rcases letter with rfl | rfl
    · exact ⟨'e', sign', digits, rfl, .inl rfl, signed, nonempty, all⟩
    · exact ⟨'E', sign', digits, rfl, .inr rfl, signed, nonempty, all⟩
  · rintro ⟨e, sign', digits, rfl, letter, signed, nonempty, all⟩
    refine ⟨[e], ?_, sign' ++ digits, ⟨sign', signed, digits, ⟨nonempty, all⟩, rfl⟩, rfl⟩
    rcases letter with rfl | rfl
    · exact .inl rfl
    · exact .inr rfl

theorem readExponent_of_mem (h : text ∈ (maybe exponent).language) :
    (readExponent text).isSome = true := by
  rcases mem_maybe.mp h with h | rfl
  · obtain ⟨e, sign', digits, rfl, letter, signed, nonempty, all⟩ := mem_exponent.mp h
    have unsigned := digits_unsigned nonempty all []
    rw [List.append_nil] at unsigned
    have split := unsigned.split_signed signed
    have fits : (e = 'e' ∨ e = 'E') ∧ digits ≠ [] ∧ digits.all Char.isDigit = true :=
      ⟨letter, nonempty, all⟩
    simp only [readExponent, split, if_pos fits, Option.isSome_some]
  · rfl

/-- An exponent has a letter in front, which is neither a digit nor a point. -/
theorem head_of_readExponent (h : (readExponent es).isSome = true) :
    ∀ c ∈ es.head?, c.isDigit = false ∧ c ≠ '.' := by
  cases es with
  | nil => nofun
  | cons e es =>
    rintro c ⟨⟩
    simp only [readExponent] at h
    split at h
    · rename_i fits
      rcases fits.1 with rfl | rfl <;> exact ⟨rfl, by decide⟩
    · cases h

theorem run_exponent (nonempty : es ≠ []) (h : (readExponent es).isSome = true) :
    exponent.run es = some [] := by
  cases es with
  | nil => exact absurd rfl nonempty
  | cons e es =>
    simp only [readExponent] at h
    split at h
    · rename_i fits
      obtain ⟨letter, nonempty, all⟩ := fits
      have first : (alt (char 'e') (char 'E')).run (e :: es) = some es := by
        rcases letter with rfl | rfl <;> rfl
      rw [exponent, run_seq_of_some first, run_signed]
      exact run_many_all nonempty all
    · cases h

theorem run_maybe_exponent (h : (readExponent es).isSome = true) :
    (maybe exponent).run es = some [] := by
  rw [run_maybe]
  by_cases nothing : es = []
  · subst nothing
    rfl
  · rw [run_exponent nothing h]
    rfl

/-! ### Decimals -/

structure Pointed (ws fs es : List Char) : Prop where
  whole : ws.all Char.isDigit = true
  fraction : fs.all Char.isDigit = true
  digit : ¬(ws = [] ∧ fs = [])
  ends : (readExponent es).isSome = true

structure Unpointed (ws es : List Char) : Prop where
  whole : ws.all Char.isDigit = true
  digit : ws ≠ []
  ends : (readExponent es).isSome = true

/-- No digit is in front of a point. -/
theorem stop_point (rest : List Char) : ∀ c ∈ ('.' :: rest).head?, c.isDigit = false := by
  rintro c ⟨⟩
  rfl

theorem Pointed.reads (h : Pointed ws fs es) :
    (readDecimal negative (ws ++ '.' :: (fs ++ es))).isSome = true := by
  have stop : ∀ c ∈ es.head?, c.isDigit = false := fun c hc => (head_of_readExponent h.ends c hc).1
  simp only [readDecimal, Lexer.takeWhile_run h.whole (stop_point _),
    dropWhile_run h.whole (stop_point _), Lexer.takeWhile_run h.fraction stop,
    dropWhile_run h.fraction stop, if_neg h.digit, Option.isSome_map]
  exact h.ends

theorem Unpointed.reads (h : Unpointed ws es) :
    (readDecimal negative (ws ++ es)).isSome = true := by
  have behind := head_of_readExponent h.ends
  have stop : ∀ c ∈ es.head?, c.isDigit = false := fun c hc => (behind c hc).1
  simp only [readDecimal, Lexer.takeWhile_run h.whole stop, dropWhile_run h.whole stop]
  split
  · exact absurd rfl (behind '.' rfl).2
  · rw [if_neg h.digit, Option.isSome_map]
    exact h.ends

/-- There are no other decimals. -/
theorem shape_of_readDecimal (h : (readDecimal negative cs).isSome = true) :
    (∃ ws fs es, cs = ws ++ '.' :: (fs ++ es) ∧ Pointed ws fs es) ∨
      ∃ ws es, cs = ws ++ es ∧ Unpointed ws es := by
  have whole : (cs.takeWhile Char.isDigit).all Char.isDigit = true := List.all_takeWhile
  have parts : cs = cs.takeWhile Char.isDigit ++ cs.dropWhile Char.isDigit :=
    List.takeWhile_append_dropWhile.symm
  simp only [readDecimal] at h
  generalize cs.takeWhile Char.isDigit = ws at parts whole h
  split at h
  · rename_i rest behind
    split at h
    · cases h
    · rename_i digit
      rw [Option.isSome_map] at h
      have split : rest = rest.takeWhile Char.isDigit ++ rest.dropWhile Char.isDigit :=
        List.takeWhile_append_dropWhile.symm
      refine .inl ⟨ws, _, _, ?_, whole, List.all_takeWhile, digit, h⟩
      rw [parts, behind, ← split]
  · split at h
    · cases h
    · rename_i digit
      rw [Option.isSome_map] at h
      exact .inr ⟨ws, _, parts, whole, digit, h⟩

/-! ### What the grammar takes -/

theorem Pointed.run_mantissa (h : Pointed ws fs es) :
    mantissa.run (ws ++ '.' :: (fs ++ es)) = some es := by
  have stop : ∀ c ∈ es.head?, c.isDigit = false := fun c hc => (head_of_readExponent h.ends c hc).1
  have point := run_char_self '.' (fs ++ es)
  by_cases nothing : ws = []
  · subst nothing
    have digit : fs ≠ [] := fun none => h.digit ⟨rfl, none⟩
    have first : (seq (many Char.isDigit) (seq (char '.') (star (one Char.isDigit)))).run
        ('.' :: (fs ++ es)) = none := run_seq_of_none (run_many_none (stop_point _))
    rw [List.nil_append, mantissa, run_alt_of_none first, run_seq_of_some point,
      run_many_run digit h.fraction stop]
  · refine run_alt_of_some ?_
    rw [run_seq_of_some (run_many_run nothing h.whole (stop_point _)), run_seq_of_some point,
      run_star_one, dropWhile_run h.fraction stop]

theorem Unpointed.run_mantissa (h : Unpointed ws es) : mantissa.run (ws ++ es) = none := by
  have behind := head_of_readExponent h.ends
  have first : (seq (many Char.isDigit) (seq (char '.') (star (one Char.isDigit)))).run
      (ws ++ es) = none := by
    rw [run_seq_of_some (run_many_run h.digit h.whole fun c hc => (behind c hc).1)]
    refine run_seq_of_none ?_
    cases es with
    | nil => rfl
    | cons e es => simp [run_char_cons, (behind e rfl).2]
  rw [mantissa, run_alt_of_none first]
  refine run_seq_of_none ?_
  cases ws with
  | nil => exact absurd rfl h.digit
  | cons w ws =>
    have digit : w.isDigit = true := by
      have all := h.whole
      rw [List.all_cons, Bool.and_eq_true] at all
      exact all.1
    have point : w ≠ '.' := by
      rintro rfl
      cases digit
    simp [run_char_cons, point]

theorem run_hexInteger_none (small : ∀ digits, (splitSign cs).2 ≠ '0' :: 'x' :: digits)
    (large : ∀ digits, (splitSign cs).2 ≠ '0' :: 'X' :: digits) : hexInteger.run cs = none := by
  rw [hexInteger, run_signed]
  match split : (splitSign cs).2 with
  | [] => rfl
  | [c] =>
    by_cases zero : c = '0'
    · subst zero
      rfl
    · exact run_seq_of_none (by simp [run_char_cons, zero])
  | c :: d :: ds =>
    by_cases zero : c = '0'
    · subst zero
      have s : d ≠ 'x' := fun h => small ds (by rw [split, h])
      have l : d ≠ 'X' := fun h => large ds (by rw [split, h])
      have mark : (alt (char 'x') (char 'X')).run (d :: ds) = none := by
        rw [run_alt_of_none (by simp [run_char_cons, s])]
        simp [run_char_cons, l]
      rw [run_seq_of_some (run_char_self '0' _), run_seq_of_none mark]
    · exact run_seq_of_none (by simp [run_char_cons, zero])

theorem run_hexInteger {x : Char} {digits : List Char} (hx : x = 'x' ∨ x = 'X')
    (split : (splitSign cs).2 = '0' :: x :: digits) (nonempty : digits ≠ [])
    (all : digits.all isHexDigit = true) : hexInteger.run cs = some [] := by
  have mark : (alt (char 'x') (char 'X')).run (x :: digits) = some digits := by
    rcases hx with rfl | rfl <;> rfl
  rw [hexInteger, run_signed, split, run_seq_of_some (run_char_self '0' _), run_seq_of_some mark]
  exact run_many_all nonempty all

/-- Where no hexadecimal number begins the recognizer goes on to the decimals. -/
theorem run_decimal (h : (readDecimal negative (splitSign cs).2).isSome = true) :
    (alt decimalFloat decimalInteger).run cs = some [] := by
  obtain ⟨ws, fs, es, split, shape⟩ | ⟨ws, es, split, shape⟩ := shape_of_readDecimal h
  · refine run_alt_of_some (run_alt_of_some ?_)
    rw [run_signed, split, run_seq_of_some shape.run_mantissa, run_maybe_exponent shape.ends]
  · have stop : ∀ c ∈ es.head?, c.isDigit = false :=
      fun c hc => (head_of_readExponent shape.ends c hc).1
    have digits := run_many_run shape.digit shape.whole stop
    have first : (seq (maybe sign) (seq mantissa (maybe exponent))).run cs = none := by
      rw [run_signed, split]
      exact run_seq_of_none shape.run_mantissa
    by_cases nothing : es = []
    · subst nothing
      have second : (seq (maybe sign) (seq (many Char.isDigit) exponent)).run cs = none := by
        rw [run_signed, split, run_seq_of_some digits]
        rfl
      have neither : decimalFloat.run cs = none := by
        rw [decimalFloat, run_alt_of_none first, second]
      rw [run_alt_of_none neither, decimalInteger, run_signed, split, digits]
    · refine run_alt_of_some ?_
      rw [decimalFloat, run_alt_of_none first, run_signed, split, run_seq_of_some digits,
        run_exponent nothing shape.ends]

/-- The recognizer takes all that the reader reads. -/
theorem run_numeral {text : String} (h : (read text).isSome = true) :
    numeral.run text.toList = some [] := by
  simp only [read] at h
  generalize text.toList = cs at h
  generalize (splitSign cs).1 = negative at h
  unfold readUnsigned at h
  split at h
  · rename_i digits split
    split at h
    · rename_i fits
      exact run_alt_of_some (run_hexInteger (.inl rfl) split fits.1 fits.2)
    · cases h
  · rename_i digits split
    split at h
    · rename_i fits
      exact run_alt_of_some (run_hexInteger (.inr rfl) split fits.1 fits.2)
    · cases h
  · rename_i small large
    rw [numeral, run_alt_of_none (run_hexInteger_none small large)]
    exact run_decimal h

/-! ### What the reader reads -/

theorem readUnsigned_hex {x : Char} {digits : List Char} (hx : x = 'x' ∨ x = 'X')
    (nonempty : digits ≠ []) (all : digits.all isHexDigit = true) :
    (readUnsigned negative ('0' :: x :: digits)).isSome = true := by
  rcases hx with rfl | rfl
  · rw [readUnsigned, if_pos ⟨nonempty, all⟩]
    rfl
  · rw [readUnsigned, if_pos ⟨nonempty, all⟩]
    rfl

/-- A zero with an x behind it begins no decimal. -/
theorem readDecimal_hex {x : Char} (hx : x = 'x' ∨ x = 'X') (digits : List Char) :
    readDecimal negative ('0' :: x :: digits) = none := by
  rcases hx with rfl | rfl <;> rfl

/-- What is a decimal is read as one. -/
theorem readUnsigned_eq_readDecimal (h : (readDecimal negative cs).isSome = true) :
    readUnsigned negative cs = readDecimal negative cs := by
  unfold readUnsigned
  split
  · rw [readDecimal_hex (.inl rfl)] at h
    cases h
  · rw [readDecimal_hex (.inr rfl)] at h
    cases h
  · rfl

theorem readUnsigned_of_readDecimal (h : (readDecimal negative cs).isSome = true) :
    (readUnsigned negative cs).isSome = true := by
  rwa [readUnsigned_eq_readDecimal h]

theorem read_signed {text : String} (signed : ws ∈ (maybe sign).language)
    (parts : ws ++ cs = text.toList) (unsigned : Unsigned cs)
    (h : ∀ negative, (readUnsigned negative cs).isSome = true) : (read text).isSome = true := by
  simp only [read, ← parts, unsigned.split_signed signed]
  exact h _

theorem read_hexInteger {text : String} (h : text.toList ∈ hexInteger.language) :
    (read text).isSome = true := by
  simp only [hexInteger, mem_seq, mem_alt, mem_char, mem_many] at h
  obtain ⟨ws, signed, _, ⟨_, rfl, _, ⟨_, mark, digits, fits, rfl⟩, rfl⟩, parts⟩ := h
  refine read_signed signed parts (fun c hc => ?_) fun negative => ?_
  · cases hc
    exact digit_unsigned rfl
  · rcases mark with rfl | rfl
    · exact readUnsigned_hex (.inl rfl) fits.1 fits.2
    · exact readUnsigned_hex (.inr rfl) fits.1 fits.2

theorem mantissa_shape (h : text ∈ mantissa.language) :
    ∃ ws fs, text = ws ++ '.' :: fs ∧ ws.all Char.isDigit = true ∧ fs.all Char.isDigit = true ∧
      ¬(ws = [] ∧ fs = []) := by
  simp only [mantissa, mem_alt, mem_seq, mem_char, mem_many, mem_star_one] at h
  rcases h with ⟨ws, ⟨digit, whole⟩, _, ⟨_, rfl, fs, fraction, rfl⟩, rfl⟩ |
    ⟨_, rfl, fs, ⟨digit, fraction⟩, rfl⟩
  · exact ⟨ws, fs, rfl, whole, fraction, fun none => digit none.1⟩
  · exact ⟨[], fs, rfl, rfl, fraction, fun none => digit none.2⟩

theorem read_pointed {text : String} (signed : cs ∈ (maybe sign).language)
    (parts : cs ++ (ws ++ '.' :: (fs ++ es)) = text.toList) (shape : Pointed ws fs es) :
    (read text).isSome = true := by
  refine read_signed signed parts ?_ fun _ => readUnsigned_of_readDecimal shape.reads
  by_cases nothing : ws = []
  · subst nothing
    exact unsigned_point _
  · exact digits_unsigned nothing shape.whole _

theorem read_unpointed {text : String} (signed : cs ∈ (maybe sign).language)
    (parts : cs ++ (ws ++ es) = text.toList) (shape : Unpointed ws es) :
    (read text).isSome = true :=
  read_signed signed parts (digits_unsigned shape.digit shape.whole _) fun _ =>
    readUnsigned_of_readDecimal shape.reads

theorem read_of_mem {text : String} (h : text.toList ∈ numeral.language) :
    (read text).isSome = true := by
  rcases mem_alt.mp h with h | h
  · exact read_hexInteger h
  simp only [decimalFloat, decimalInteger, mem_alt, mem_seq] at h
  obtain (⟨cs, signed, _, ⟨_, number, es, ends, rfl⟩, parts⟩ |
    ⟨cs, signed, _, ⟨ws, digits, es, ends, rfl⟩, parts⟩) | ⟨cs, signed, ws, digits, parts⟩ := h
  · obtain ⟨ws, fs, rfl, whole, fraction, digit⟩ := mantissa_shape number
    rw [List.append_assoc, List.cons_append] at parts
    exact read_pointed signed parts ⟨whole, fraction, digit, readExponent_of_mem ends⟩
  · obtain ⟨digit, whole⟩ := mem_many.mp digits
    have ends := readExponent_of_mem (mem_maybe.mpr (.inl ends))
    exact read_unpointed signed parts ⟨whole, digit, ends⟩
  · obtain ⟨digit, whole⟩ := mem_many.mp digits
    rw [← List.append_nil ws] at parts
    exact read_unpointed signed parts ⟨whole, digit, rfl⟩

end Numeral

/-- The texts that are numbers are those of the grammar, however it is read. Neither blanks nor any
other signs occur in them. -/
theorem Number.isSome_ofText? (s : String) :
    ((Number.ofText? s).isSome = true ↔ s.toList ∈ Grammar.numeral.language) ∧
      ((Number.ofText? s).isSome = true ↔ Grammar.numeral.run s.toList = some []) ∧
      ((Number.ofText? s).isSome = true →
        ∀ c ∈ s.toList, Digits.isHexDigit c = true ∨ c ∈ ['x', 'X', '.', '+', '-']) := by
  have reads : (Number.ofText? s).isSome = (Numeral.read s).isSome := Option.isSome_map
  rw [reads]
  refine ⟨⟨fun h => ?_, Numeral.read_of_mem⟩, ⟨Numeral.run_numeral, fun h => ?_⟩, fun h c hc => ?_⟩
  · exact Grammar.mem_of_run (Numeral.run_numeral h)
  · exact Numeral.read_of_mem (Grammar.mem_of_run h)
  · have inside := Grammar.mem_of_run (Numeral.run_numeral h)
    exact Grammar.of_uses_numeral (Grammar.uses_of_mem inside hc)

/-- A sign may stand in front of a numeral and in its exponent; a blank makes it another text. -/
theorem Number.isSome_ofText?_signed :
    "-.5e+3".toList ∈ Grammar.numeral.language ∧ "-.5e+3 ".toList ∉ Grammar.numeral.language := by
  constructor
  · exact (Number.isSome_ofText? "-.5e+3").1.mp rfl
  · intro blank
    cases (Number.isSome_ofText? "-.5e+3 ").1.mpr blank

end Scriptlet
