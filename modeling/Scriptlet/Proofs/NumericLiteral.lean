import Scriptlet.Proofs.Lexeme
import Scriptlet.Proofs.Numeric

/-!
Numbers in scripts are numbers as values. The lexer scans a numeric literal octet by octet and knows
nothing of the grammar of numerals; still, where it finds a literal it has taken a numeral, and a
numeral that ends where it may is taken as a literal.
-/

namespace Scriptlet

open Numeral

/-! ### Where a literal ends -/

namespace Lexer

variable {text bs rest : List UInt8} {first b : UInt8} {value : String} {width n : Nat}

theorem stops_of_literal (h : literal text width rest = .token ⟨.literal, value⟩ n) :
    Stops rest := by
  unfold literal at h
  split at h
  · rename_i b more
    split at h
    · cases h
    · rename_i ends
      rw [Bool.or_eq_true, not_or, Bool.not_eq_true, beq_iff_eq] at ends
      rintro _ ⟨⟩
      exact ends
  · nofun

theorem literal_token (text : List UInt8) (width : Nat) (rest : List UInt8) :
    ∃ t n, literal text width rest = .token t n := by
  unfold literal
  split
  · split <;> exact ⟨_, _, rfl⟩
  · exact ⟨_, _, rfl⟩

theorem exponent_plain {e : UInt8} (other : ¬(e == 101 || e == 69) = true) (text : List UInt8)
    (width : Nat) (bs : List UInt8) :
    exponent text width (e :: bs) = literal text width (e :: bs) := by
  simp [exponent, other]

theorem exponent_token (text : List UInt8) (width : Nat) (rest : List UInt8) :
    ∃ t n, exponent text width rest = .token t n := by
  cases rest with
  | nil => exact literal_token text width []
  | cons e bs =>
    by_cases letter : (e == 101 || e == 69) = true
    · rw [exponent_letter letter]
      dsimp only
      split
      · exact ⟨_, _, rfl⟩
      · exact literal_token _ _ _
    · rw [exponent_plain letter]
      exact literal_token _ _ _

/-- A number is a token, malformed or not. -/
theorem number_token (first : UInt8) (bs : List UInt8) : ∃ t n, number first bs = .token t n := by
  unfold number
  split
  · split
    · unfold hexadecimal
      dsimp only
      split
      · exact ⟨_, _, rfl⟩
      · exact literal_token _ _ _
    · exact exponent_token _ _ _
  · exact exponent_token _ _ _

theorem exponentMark_mem {e : UInt8} (letter : (e == 101 || e == 69) = true) (bs : List UInt8) :
    exponentMark e bs ∈
        ([[101], [69], [101, 43], [101, 45], [69, 43], [69, 45]] : List (List UInt8)) ∧
      ∃ more, e :: bs = exponentMark e bs ++ more := by
  rw [Bool.or_eq_true, beq_iff_eq, beq_iff_eq] at letter
  unfold exponentMark
  split
  · rename_i s more
    by_cases sign : (s == 43 || s == 45) = true
    · rw [if_pos sign]
      rw [Bool.or_eq_true, beq_iff_eq, beq_iff_eq] at sign
      refine ⟨?_, more, rfl⟩
      rcases letter with rfl | rfl <;> rcases sign with rfl | rfl <;> simp
    · rw [if_neg sign]
      refine ⟨?_, s :: more, rfl⟩
      rcases letter with rfl | rfl <;> simp
  · refine ⟨?_, [], rfl⟩
    rcases letter with rfl | rfl <;> simp

/-- What follows a mantissa in a literal is an exponent or nothing, and then the end. -/
theorem split_of_exponent (h : exponent text width rest = .token ⟨.literal, value⟩ n) :
    ∃ expo left, rest = expo ++ left ∧ IsExponent expo ∧ Stops left := by
  cases rest with
  | nil => exact ⟨[], [], rfl, .inl rfl, stops_of_literal h⟩
  | cons e bs =>
    by_cases letter : (e == 101 || e == 69) = true
    · obtain ⟨mark, more, parts⟩ := exponentMark_mem letter bs
      rw [exponent_letter letter, parts, List.drop_left] at h
      dsimp only at h
      split at h
      · cases h
      · rename_i digit
        refine ⟨exponentMark e bs ++ more.takeWhile isDigit, more.dropWhile isDigit, ?_,
          .inr ⟨_, _, rfl, mark, digit, List.all_takeWhile⟩, ?_⟩
        · rw [List.append_assoc, List.takeWhile_append_dropWhile, parts]
        · rw [drop_takeWhile] at h
          exact stops_of_literal h
    · rw [exponent_plain letter] at h
      exact ⟨[], e :: bs, rfl, .inl rfl, stops_of_literal h⟩

inductive IsDecimal : List UInt8 → Prop where
  | pointed {whole fraction expo} : whole.all isDigit = true → fraction.all isDigit = true →
      ¬(whole = [] ∧ fraction = []) → IsExponent expo →
      IsDecimal (whole ++ 46 :: (fraction ++ expo))
  | unpointed {whole expo} : whole.all isDigit = true → whole ≠ [] → IsExponent expo →
      IsDecimal (whole ++ expo)

theorem split_of_decimal_point (digit : (bs.head?.map isDigit).getD false = true)
    (h : decimal 46 bs = .token ⟨.literal, value⟩ n) :
    ∃ taken left, 46 :: bs = taken ++ left ∧ IsDecimal taken ∧ Stops left := by
  simp only [decimal, if_true, List.length_nil, List.drop_zero, ne_eq, not_true_eq_false,
    false_and, if_false, List.nil_append, drop_takeWhile] at h
  obtain ⟨expo, left, parts, ends, stops⟩ := split_of_exponent h
  have some : bs.takeWhile isDigit ≠ [] := by
    cases bs with
    | nil => cases digit
    | cons d bs =>
      have digit : isDigit d = true := digit
      simp [digit]
  refine ⟨[] ++ 46 :: (bs.takeWhile isDigit ++ expo), left, ?_, ?_, stops⟩
  · rw [List.nil_append, List.cons_append, List.append_assoc, ← parts,
      List.takeWhile_append_dropWhile]
  · exact .pointed rfl List.all_takeWhile (fun none => some none.2) ends

theorem split_of_decimal_digit (digit : isDigit first = true)
    (h : decimal first bs = .token ⟨.literal, value⟩ n) :
    ∃ taken left, first :: bs = taken ++ left ∧ IsDecimal taken ∧ Stops left := by
  have plain := ne_point_of_isDigit digit
  have split : bs = bs.takeWhile isDigit ++ bs.dropWhile isDigit :=
    List.takeWhile_append_dropWhile.symm
  have digits : (bs.takeWhile isDigit).all isDigit = true := List.all_takeWhile
  simp only [decimal, if_neg plain, drop_takeWhile] at h
  generalize bs.takeWhile isDigit = whole at split digits h
  generalize bs.dropWhile isDigit = behind at split h
  have whole' : (first :: whole).all isDigit = true := by simp [digit, digits]
  by_cases point : behind.head? = some 46
  · obtain ⟨after, rfl⟩ : ∃ after, behind = 46 :: after := by
      cases behind with
      | nil => cases point
      | cons b after => exact ⟨after, by simpa using point⟩
    simp only [ne_eq, plain, not_false_eq_true, List.head?_cons, and_self, if_true,
      List.length_singleton, List.drop_succ_cons, List.drop_zero] at h
    obtain ⟨expo, left, parts, ends, stops⟩ := split_of_exponent h
    refine ⟨first :: whole ++ 46 :: (after.takeWhile isDigit ++ expo), left, ?_, ?_, stops⟩
    · rw [List.append_assoc, List.cons_append, List.cons_append, List.append_assoc, ← parts,
        List.takeWhile_append_dropWhile, split]
    · exact .pointed whole' List.all_takeWhile (by simp) ends
  · simp only [point, and_false, if_false, List.length_nil, List.drop_zero, List.append_nil] at h
    obtain ⟨expo, left, parts, ends, stops⟩ := split_of_exponent h
    refine ⟨(first :: whole ++ behind.takeWhile isDigit) ++ expo, left, ?_, ?_, stops⟩
    · rw [List.append_assoc, List.append_assoc, ← parts, List.takeWhile_append_dropWhile,
        List.cons_append, split]
    · refine .unpointed ?_ (by simp) ends
      rw [List.all_append, whole', List.all_takeWhile]
      rfl

theorem split_of_hexadecimal (h : hexadecimal bs = .token ⟨.literal, value⟩ n) :
    ∃ digits left, bs = digits ++ left ∧ digits ≠ [] ∧ digits.all isHexDigit = true ∧
      Stops left := by
  simp only [hexadecimal, drop_takeWhile] at h
  split at h
  · cases h
  · rename_i some
    exact ⟨_, _, List.takeWhile_append_dropWhile.symm, some, List.all_takeWhile,
      stops_of_literal h⟩

/-! ### Characters -/

def chars (bytes : List UInt8) : List Char := bytes.map Char.ofUInt8

theorem toUInt8_ofUInt8 : ∀ n : Fin 256,
    (Char.ofUInt8 (UInt8.ofNat n)).toUInt8 = UInt8.ofNat n := by
  decide +kernel

theorem octets_chars (bytes : List UInt8) : (chars bytes).map Char.toUInt8 = bytes := by
  have each : ∀ b : UInt8, (Char.ofUInt8 b).toUInt8 = b := fun b => by
    simpa using toUInt8_ofUInt8 ⟨b.toNat, b.toNat_lt⟩
  rw [chars, List.map_map]
  exact (List.map_congr_left fun b _ => each b).trans (List.map_id bytes)

/-- Octets of one class are characters of another one if each octet of it is. -/
theorem all_chars {f : UInt8 → Bool} {g : Char → Bool}
    (each : ∀ b, f b = true → g (Char.ofUInt8 b) = true) (all : bs.all f = true) :
    (chars bs).all g = true := by
  rw [chars, List.all_map, List.all_eq_true]
  exact fun b inside => each b (List.all_eq_true.mp all b inside)

theorem digits_chars (all : bs.all isDigit = true) : (chars bs).all Char.isDigit = true :=
  all_chars (fun b => (digit_char b).1) all

theorem hexDigits_chars (all : bs.all isHexDigit = true) :
    (chars bs).all Digits.isHexDigit = true :=
  all_chars (fun b => (digit_char b).2) all

theorem exponent_chars (h : IsExponent bs) : (readExponent (chars bs)).isSome = true := by
  rcases h with rfl | ⟨mark, digits, rfl, hmark, some, all⟩
  · rfl
  · have split : chars (mark ++ digits) = chars mark ++ chars digits := List.map_append
    have nonempty : chars digits ≠ [] := by simpa [chars] using some
    have reads (e : Char) (sign : List Char) (letter : e = 'e' ∨ e = 'E')
        (signed : sign = ['+'] ∨ sign = ['-'] ∨ sign = []) :
        (readExponent (e :: (sign ++ chars digits))).isSome = true := by
      refine readExponent_of_mem (Grammar.mem_maybe.mpr (.inl (mem_exponent.mpr ?_)))
      exact ⟨e, sign, _, rfl, letter, mem_sign.mpr signed, nonempty, digits_chars all⟩
    simp only [List.mem_cons, List.not_mem_nil, or_false] at hmark
    rw [split]
    rcases hmark with rfl | rfl | rfl | rfl | rfl | rfl
    · exact reads 'e' [] (.inl rfl) (.inr (.inr rfl))
    · exact reads 'E' [] (.inr rfl) (.inr (.inr rfl))
    · exact reads 'e' ['+'] (.inl rfl) (.inl rfl)
    · exact reads 'e' ['-'] (.inl rfl) (.inr (.inl rfl))
    · exact reads 'E' ['+'] (.inr rfl) (.inl rfl)
    · exact reads 'E' ['-'] (.inr rfl) (.inr (.inl rfl))

theorem decimal_chars (h : IsDecimal bs) :
    (readUnsigned false (chars bs)).isSome = true := by
  refine readUnsigned_of_readDecimal ?_
  cases h with
  | @pointed whole fraction expo all places digit ends =>
    have shape : Pointed (chars whole) (chars fraction) (chars expo) :=
      ⟨digits_chars all, digits_chars places, by simpa [chars] using digit, exponent_chars ends⟩
    have split : chars (whole ++ 46 :: (fraction ++ expo)) =
        chars whole ++ '.' :: (chars fraction ++ chars expo) := by
      simp only [chars, List.map_append, List.map_cons]
      rfl
    rw [split]
    exact shape.reads
  | @unpointed whole expo all digit ends =>
    have shape : Unpointed (chars whole) (chars expo) :=
      ⟨digits_chars all, by simpa [chars] using digit, exponent_chars ends⟩
    have split : chars (whole ++ expo) = chars whole ++ chars expo := List.map_append
    rw [split]
    exact shape.reads

/-- A literal that a number starts is a numeral, and ends where a numeral may. -/
theorem split_of_number (h : number b bs = .token ⟨.literal, value⟩ n)
    (starts : isDigit b = true ∨ b = 46 ∧ (bs.head?.map isDigit).getD false = true) :
    ∃ taken left, b :: bs = taken ++ left ∧ (readUnsigned false (chars taken)).isSome = true ∧
      Stops left := by
  have onward (h : decimal b bs = .token ⟨.literal, value⟩ n) :
      ∃ taken left, b :: bs = taken ++ left ∧ (readUnsigned false (chars taken)).isSome = true ∧
        Stops left := by
    have split : ∃ taken left, b :: bs = taken ++ left ∧ IsDecimal taken ∧ Stops left := by
      rcases starts with digit | ⟨rfl, digit⟩
      · exact split_of_decimal_digit digit h
      · exact split_of_decimal_point digit h
    obtain ⟨taken, left, parts, shape, stops⟩ := split
    exact ⟨taken, left, parts, decimal_chars shape, stops⟩
  unfold number at h
  split at h
  · rename_i x rest
    split at h
    · rename_i hex
      obtain ⟨rfl, mark⟩ := hex
      obtain ⟨digits, left, rfl, some, all, stops⟩ := split_of_hexadecimal h
      refine ⟨48 :: x :: digits, left, rfl, ?_, stops⟩
      have nonempty : chars digits ≠ [] := by simpa [chars] using some
      rcases mark with rfl | rfl
      · exact readUnsigned_hex (.inl rfl) nonempty (hexDigits_chars all)
      · exact readUnsigned_hex (.inr rfl) nonempty (hexDigits_chars all)
    · exact onward h
  · exact onward h

/-- A script that goes on with a digit, or with a point and a digit. -/
def BeginsNumber (bytes : List UInt8) : Prop :=
  ∃ d more, isDigit d = true ∧ (bytes = d :: more ∨ bytes = 46 :: d :: more)

theorem BeginsNumber.piece {bytes : List UInt8} (h : BeginsNumber bytes) :
    ∃ b bs, bytes = b :: bs ∧
      (isDigit b = true ∨ b = 46 ∧ (bs.head?.map isDigit).getD false = true) := by
  obtain ⟨d, more, digit, rfl | rfl⟩ := h
  · exact ⟨d, more, rfl, .inl digit⟩
  · exact ⟨46, d :: more, rfl, .inr ⟨rfl, digit⟩⟩

end Lexer

/-! ### Values -/

namespace Numeral

variable {cs : List Char}

theorem unsigned_of_readUnsigned (h : (readUnsigned false cs).isSome = true) : Unsigned cs := by
  cases cs with
  | nil => nofun
  | cons c cs =>
    rintro _ ⟨⟩
    constructor
    · rintro rfl
      cases h
    · rintro rfl
      cases h

theorem read_unsigned {text : String} (h : Unsigned text.toList) :
    read text = readUnsigned false text.toList := by
  simp only [read, h.split]

theorem readUnsigned_smallX (h : (readUnsigned false cs).isSome = true) :
    (readUnsigned false (Lexer.smallX cs)).isSome = true := by
  unfold Lexer.smallX
  split
  · exact h
  · exact h

end Numeral

namespace Input

variable {phase : Phase} {p : Position}

theorem next_of_numeral (phase : Phase) (p : Position) {text : String} {rest : List UInt8}
    (numeral : (readUnsigned false text.toList).isSome = true) (stops : Lexer.Stops rest) :
    Input.next ⟨Utf8.encode text ++ rest, p, none⟩ phase =
      (⟨.literal, String.ofList (Lexer.smallX text.toList)⟩,
        ⟨rest, p.pass (Utf8.encode text), none⟩) := by
  simp only [Input.next, Lexer.next_numeral numeral stops]

/-- A literal that a number begins is an unsigned numeral, made of the octets that are taken. -/
theorem numeral_of_next {bytes : List UInt8} {value : String} {j : Input}
    (begins : Lexer.BeginsNumber bytes)
    (read : Input.next ⟨bytes, p, none⟩ phase = (⟨.literal, value⟩, j)) :
    ∃ text : String, (readUnsigned false text.toList).isSome = true ∧
      bytes = Utf8.encode text ++ j.rest ∧
      value = String.ofList (Lexer.smallX text.toList) := by
  obtain ⟨b, bs, rfl, starts⟩ := begins.piece
  obtain ⟨t, n, number⟩ := Lexer.number_token b bs
  have first : (Input.next ⟨b :: bs, p, none⟩ phase).1 = t := by
    simp only [Input.next, Lexer.next, Lexer.piece_number starts, number]
  rw [read] at first
  subst first
  obtain ⟨taken, left, parts, numeral, stops⟩ := Lexer.split_of_number number starts
  obtain ⟨_, _, ascii, -, -⟩ := Lexer.piece_numeral numeral stops
  obtain ⟨text, chars⟩ : ∃ text : String, text.toList = Lexer.chars taken :=
    ⟨_, String.toList_ofList⟩
  have octets : Utf8.encode text = taken := by
    rw [Utf8.encode, chars, Lexer.encode_ascii ascii, Lexer.octets_chars]
  rw [← chars] at numeral
  have again := next_of_numeral phase p numeral stops
  rw [octets, ← parts, read] at again
  cases again
  exact ⟨text, numeral, by rw [octets, parts], rfl⟩

/-- Where a number begins, a literal that is read is a numeral from there on, and its value is the
same text, with a small x; and an unsigned numeral with nothing behind it that could belong to it
is read as a literal. -/
theorem next_number (phase : Phase) (p : Position) :
    (∀ (bytes : List UInt8) (value : String) (j : Input), Lexer.BeginsNumber bytes →
      Input.next ⟨bytes, p, none⟩ phase = (⟨.literal, value⟩, j) →
      (Number.ofText? value).isSome = true ∧
        ∃ text : String, bytes = Utf8.encode text ++ j.rest ∧
          value = String.ofList (Lexer.smallX text.toList)) ∧
    (∀ (text : String) (rest : List UInt8), (Number.ofText? text).isSome = true →
      Unsigned text.toList → Lexer.Stops rest →
      Input.next ⟨Utf8.encode text ++ rest, p, none⟩ phase =
        (⟨.literal, String.ofList (Lexer.smallX text.toList)⟩,
          ⟨rest, p.pass (Utf8.encode text), none⟩)) := by
  have reads (text : String) : (Number.ofText? text).isSome = (read text).isSome :=
    Option.isSome_map
  constructor
  · intro bytes value j begins read
    obtain ⟨text, numeral, parts, rfl⟩ := numeral_of_next begins read
    refine ⟨?_, text, parts, rfl⟩
    have small := readUnsigned_smallX numeral
    rw [reads, read_unsigned]
    · simpa using small
    · simpa using unsigned_of_readUnsigned small
  · intro text rest numeral unsigned stops
    rw [reads, read_unsigned unsigned] at numeral
    exact next_of_numeral phase p numeral stops

/-- A capital X is made small, and a point may end a numeral. -/
theorem next_number_capital :
    Input.next ⟨Utf8.encode "0X1F" ++ [32, 49, 46], {}, none⟩ .expr =
        (⟨.literal, "0x1F"⟩, ⟨[32, 49, 46], Position.pass {} (Utf8.encode "0X1F"), none⟩) ∧
      (Number.ofText? "1.").isSome = true := by
  have stops : Lexer.Stops [32, 49, 46] := by
    rintro b ⟨⟩
    exact ⟨rfl, by decide⟩
  refine ⟨(next_number .expr {}).2 "0X1F" _ rfl ?_ stops, ?_⟩
  · rintro c ⟨⟩
    decide
  · exact ((next_number .expr {}).1 [49, 46] "1." _ ⟨49, [46], rfl, .inl rfl⟩ rfl).1

end Input

end Scriptlet
