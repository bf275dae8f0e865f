import Scriptlet.Number.Numeral
import Scriptlet.Proofs.Lexing

/-!
Lexing of numerals. An unsigned numeral is digits behind `0x`, or digits with at most a point and an
exponent; where it ends, the lexer ends it too and takes it as a literal.
-/

namespace Scriptlet.Lexer

/-- What ends a numeral: neither a name nor a point follows. -/
def Stops (rest : List UInt8) : Prop := ∀ b ∈ rest.head?, isNameByte b = false ∧ b ≠ 46

theorem Gap.stops {rest : List UInt8} (gap : Gap rest) : Stops rest := by
  intro b hb
  rcases gap b hb with rfl | rfl <;> exact ⟨rfl, by decide⟩

theorem isNameByte_of_isDigit {b : UInt8} (h : isDigit b = true) : isNameByte b = true := by
  simp [isNameByte, h]

theorem isNameByte_of_isHexDigit : ∀ n : Fin 256, isHexDigit (UInt8.ofNat n) = true →
    isNameByte (UInt8.ofNat n) = true := by
  decide +kernel

theorem literal_stops {text rest : List UInt8} {width : Nat} (stops : Stops rest) :
    literal text width rest = .token ⟨.literal, Utf8.decode text⟩ width := by
  unfold literal
  split
  · rename_i b more
    obtain ⟨name, point⟩ := stops b rfl
    simp [name, point]
  · rfl

/-! ### Octets -/

def IsExponent (expo : List UInt8) : Prop :=
  expo = [] ∨ ∃ mark digits, expo = mark ++ digits ∧
    mark ∈ ([[101], [69], [101, 43], [101, 45], [69, 43], [69, 45]] : List (List UInt8)) ∧
    digits ≠ [] ∧ digits.all isDigit = true

/-- Neither a digit nor a point follows in front of an exponent or where a numeral ends. -/
theorem IsExponent.head {expo rest : List UInt8} (h : IsExponent expo) (stops : Stops rest) :
    ∀ b ∈ (expo ++ rest).head?, isDigit b = false ∧ b ≠ 46 := by
  intro b hb
  rcases h with rfl | ⟨mark, digits, rfl, hmark, -, -⟩
  · obtain ⟨name, point⟩ := stops b hb
    refine ⟨?_, point⟩
    cases digit : isDigit b with
    | false => rfl
    | true => simp [isNameByte_of_isDigit digit] at name
  · simp only [List.mem_cons, List.not_mem_nil, or_false] at hmark
    rcases hmark with rfl | rfl | rfl | rfl | rfl | rfl <;> cases hb <;> exact ⟨rfl, by decide⟩

theorem Stops.digit {rest : List UInt8} (stops : Stops rest) : ∀ b ∈ rest.head?, isDigit b = false :=
  fun b hb => (IsExponent.head (.inl rfl) stops b hb).1

def exponentMark (e : UInt8) (bs : List UInt8) : List UInt8 :=
  match bs with
  | s :: _ => if s == 43 || s == 45 then [e, s] else [e]
  | [] => [e]

theorem exponent_letter {e : UInt8} (letter : (e == 101 || e == 69) = true) (text : List UInt8)
    (width : Nat) (bs : List UInt8) :
    exponent text width (e :: bs) =
      let after := (e :: bs).drop (exponentMark e bs).length
      let digits := after.takeWhile isDigit
      let width := width + (exponentMark e bs).length + digits.length
      if digits = [] then .error "Invalid exponent in numeric literal" width
      else literal (text ++ exponentMark e bs ++ digits) width (after.drop digits.length) := by
  simp only [exponent, letter, if_true]
  rfl

/-- An exponent whose mark has been told apart from its digits. -/
theorem exponent_marked {text digits rest : List UInt8} {width : Nat} {e : UInt8}
    (he : e = 101 ∨ e = 69) (sign : List UInt8) (hsign : sign = [] ∨ sign = [43] ∨ sign = [45])
    (some : digits ≠ []) (all : digits.all isDigit = true) (stops : Stops rest) :
    exponent text width (e :: sign ++ digits ++ rest) =
      .token ⟨.literal, Utf8.decode (text ++ (e :: sign ++ digits))⟩
        (width + (e :: sign ++ digits).length) := by
  have letter : (e == 101 || e == 69) = true := by simpa using he
  have taken : (digits ++ rest).takeWhile isDigit = digits := takeWhile_run all stops.digit
  have mark : exponentMark e (sign ++ (digits ++ rest)) = e :: sign := by
    rcases hsign with rfl | rfl | rfl
    · cases digits with
      | nil => exact absurd rfl some
      | cons d ds =>
        have digit : isDigit d = true := by
          simp only [List.all_cons, Bool.and_eq_true] at all
          exact all.1
        have unsigned : (d == 43 || d == 45) = false := by
          cases h : d == 43 || d == 45 with
          | false => rfl
          | true =>
            simp only [Bool.or_eq_true, beq_iff_eq] at h
            rcases h with rfl | rfl <;> cases digit
        simp [exponentMark, unsigned]
    · rfl
    · rfl
  have after : (e :: (sign ++ (digits ++ rest))).drop (e :: sign).length = digits ++ rest := by
    rw [← List.cons_append, List.drop_left]
  rw [List.append_assoc, List.cons_append, exponent_letter letter, mark, after]
  simp only [taken]
  rw [if_neg some, List.drop_left, literal_stops stops]
  simp only [List.append_assoc, List.length_append, Nat.add_assoc]

theorem exponent_run {text expo rest : List UInt8} {width : Nat} (h : IsExponent expo)
    (stops : Stops rest) :
    exponent text width (expo ++ rest) =
      .token ⟨.literal, Utf8.decode (text ++ expo)⟩ (width + expo.length) := by
  rcases h with rfl | ⟨mark, digits, rfl, hmark, some, all⟩
  · have plain : exponent text width rest = literal text width rest := by
      unfold exponent
      split
      · rename_i e bs
        have other : (e == 101 || e == 69) = false := by
          cases h : e == 101 || e == 69 with
          | false => rfl
          | true =>
            simp only [Bool.or_eq_true, beq_iff_eq] at h
            rcases h with rfl | rfl <;> cases (stops _ rfl).1
        simp [other]
      · rfl
    rw [List.nil_append, plain, literal_stops stops, List.append_nil]
    rfl
  · simp only [List.mem_cons, List.not_mem_nil, or_false] at hmark
    rcases hmark with rfl | rfl | rfl | rfl | rfl | rfl
    · exact exponent_marked (.inl rfl) [] (by simp) some all stops
    · exact exponent_marked (.inr rfl) [] (by simp) some all stops
    · exact exponent_marked (.inl rfl) [43] (by simp) some all stops
    · exact exponent_marked (.inl rfl) [45] (by simp) some all stops
    · exact exponent_marked (.inr rfl) [43] (by simp) some all stops
    · exact exponent_marked (.inr rfl) [45] (by simp) some all stops

section Decimal

variable {first : UInt8} {whole fraction expo rest : List UInt8}

theorem ne_point_of_isDigit (h : isDigit first = true) : first ≠ 46 := by
  rintro rfl
  cases h

theorem decimal_whole (hfirst : isDigit first = true) (hwhole : whole.all isDigit = true)
    (hexpo : IsExponent expo) (stops : Stops rest) :
    decimal first (whole ++ expo ++ rest) =
      .token ⟨.literal, Utf8.decode (first :: (whole ++ expo))⟩ (whole ++ expo).length := by
  have behind := hexpo.head stops
  have digits : (whole ++ (expo ++ rest)).takeWhile isDigit = whole :=
    takeWhile_run hwhole fun b hb => (behind b hb).1
  have noDigits : (expo ++ rest).takeWhile isDigit = [] :=
    takeWhile_run (by rfl : ([] : List UInt8).all isDigit = true) fun b hb => (behind b hb).1
  have noPoint : (expo ++ rest).head? ≠ some 46 := fun h => (behind 46 h).2 rfl
  simp only [decimal, List.append_assoc, if_neg (ne_point_of_isDigit hfirst), digits,
    List.drop_left, noPoint, and_false, if_false, List.length_nil, List.drop_zero, noDigits,
    List.append_nil]
  rw [exponent_run hexpo stops, List.length_append]
  rfl

theorem decimal_point (hfirst : isDigit first = true) (hwhole : whole.all isDigit = true)
    (hfraction : fraction.all isDigit = true) (hexpo : IsExponent expo) (stops : Stops rest) :
    decimal first (whole ++ 46 :: fraction ++ expo ++ rest) =
      .token ⟨.literal, Utf8.decode (first :: (whole ++ 46 :: fraction ++ expo))⟩
        (whole ++ 46 :: fraction ++ expo).length := by
  have behind := hexpo.head stops
  have digits : (whole ++ 46 :: (fraction ++ (expo ++ rest))).takeWhile isDigit = whole :=
    takeWhile_run hwhole (by rintro _ ⟨⟩; rfl)
  have places : (fraction ++ (expo ++ rest)).takeWhile isDigit = fraction :=
    takeWhile_run hfraction fun b hb => (behind b hb).1
  have plain := ne_point_of_isDigit hfirst
  simp only [decimal, List.append_assoc, List.cons_append, plain, if_false, digits, List.drop_left,
    List.head?_cons, ne_eq, not_false_eq_true, and_self, if_true, List.length_singleton,
    List.drop_succ_cons, List.drop_zero, places, List.nil_append]
  rw [exponent_run hexpo stops]
  simp only [List.append_assoc, List.cons_append, List.length_append, List.length_cons,
    Piece.token.injEq, true_and]
  omega

theorem decimal_fraction (hfraction : fraction.all isDigit = true) (hexpo : IsExponent expo)
    (stops : Stops rest) :
    decimal 46 (fraction ++ expo ++ rest) =
      .token ⟨.literal, Utf8.decode (46 :: (fraction ++ expo))⟩ (fraction ++ expo).length := by
  have places : (fraction ++ (expo ++ rest)).takeWhile isDigit = fraction :=
    takeWhile_run hfraction fun b hb => (hexpo.head stops b hb).1
  simp only [decimal, List.append_assoc, if_true, List.length_nil, List.drop_zero, ne_eq,
    not_true_eq_false, false_and, if_false, places, List.drop_left, List.nil_append]
  rw [exponent_run hexpo stops]
  simp

end Decimal

theorem hexadecimal_run {digits rest : List UInt8} (some : digits ≠ [])
    (all : digits.all isHexDigit = true) (stops : Stops rest) :
    hexadecimal (digits ++ rest) =
      .token ⟨.literal, Utf8.decode (48 :: 120 :: digits)⟩ (1 + digits.length) := by
  have taken : (digits ++ rest).takeWhile isHexDigit = digits := by
    refine takeWhile_run all fun b hb => ?_
    have name := isNameByte_of_isHexDigit ⟨b.toNat, b.toNat_lt⟩
    simp only [UInt8.ofNat_toNat, (stops b hb).1] at name
    simpa using name
  simp only [hexadecimal, taken, if_neg some, List.drop_left]
  exact literal_stops stops

/-- An octet that starts a numeral starts nothing else. -/
theorem digit_plain : ∀ n : Fin 256, isDigit (UInt8.ofNat n) = true ∨ n = 46 →
    isBlank (UInt8.ofNat n) = false ∧ Char.ofUInt8 (UInt8.ofNat n) ∉ marks := by
  decide +kernel

theorem piece_number {b : UInt8} {bs : List UInt8}
    (h : isDigit b = true ∨ b = 46 ∧ (bs.head?.map isDigit).getD false = true) :
    piece b bs = number b bs := by
  have plain := digit_plain ⟨b.toNat, b.toNat_lt⟩
  simp only [UInt8.ofNat_toNat] at plain
  obtain ⟨blank, unmarked⟩ := plain (h.imp id fun ⟨point, _⟩ => by simp [point])
  rw [piece_unmarked unmarked, blank]
  rcases h with digit | ⟨rfl, digit⟩
  · simp [digit]
  · simp [digit]

/-! ### Characters -/

theorem encodeChar_ascii {c : Char} (h : c.toNat < 128) : String.utf8EncodeChar c = [c.toUInt8] := by
  have one : c.utf8Size = 1 := Char.utf8Size_eq_one_iff.mpr (UInt32.le_iff_toNat_le.mpr (by
    have small : c.val.toNat < 128 := h
    have bound : (127 : UInt32).toNat = 127 := rfl
    omega))
  exact String.utf8EncodeChar_eq_singleton one

theorem encode_ascii {cs : List Char} (h : ∀ c ∈ cs, c.toNat < 128) :
    cs.flatMap String.utf8EncodeChar = cs.map Char.toUInt8 := by
  induction cs with
  | nil => rfl
  | cons c cs ih =>
    rw [List.flatMap_cons, encodeChar_ascii (h c (by simp)), ih fun d hd => h d (by simp [hd])]
    rfl

/-- Among the ASCII characters, digits have the octets of digits. -/
theorem digit_ascii : ∀ n : Fin 128,
    ((Char.ofNat n).isDigit = true → isDigit (Char.ofNat n).toUInt8 = true) ∧
      (Digits.isHexDigit (Char.ofNat n) = true → isHexDigit (Char.ofNat n).toUInt8 = true) := by
  decide +kernel

theorem hexDigit_octet {c : Char} (h : Digits.isHexDigit c = true) :
    c.toNat < 128 ∧ isHexDigit c.toUInt8 = true := by
  have small : c.toNat < 128 := by
    have upper : c ≤ '9' ∨ c ≤ 'f' ∨ c ≤ 'F' := by
      simp only [Digits.isHexDigit, Char.isDigit, Bool.or_eq_true, Bool.and_eq_true,
        decide_eq_true_eq] at h
      rcases h with (⟨-, h⟩ | ⟨-, h⟩) | ⟨-, h⟩
      · exact .inl h
      · exact .inr (.inl h)
      · exact .inr (.inr h)
    rcases upper with h | h | h <;> exact Nat.lt_of_le_of_lt h (by decide)
  have octet := (digit_ascii ⟨c.toNat, small⟩).2
  simp only [Char.ofNat_toNat] at octet
  exact ⟨small, octet h⟩

theorem digit_octet {c : Char} (h : c.isDigit = true) :
    c.toNat < 128 ∧ isDigit c.toUInt8 = true := by
  have hex : Digits.isHexDigit c = true := by simp [Digits.isHexDigit, h]
  have small := (hexDigit_octet hex).1
  have octet := (digit_ascii ⟨c.toNat, small⟩).1
  simp only [Char.ofNat_toNat] at octet
  exact ⟨small, octet h⟩

theorem digit_of_octet : ∀ n : Fin 256,
    (isDigit (UInt8.ofNat n) = true → (Char.ofUInt8 (UInt8.ofNat n)).isDigit = true) ∧
      (isHexDigit (UInt8.ofNat n) = true →
        Digits.isHexDigit (Char.ofUInt8 (UInt8.ofNat n)) = true) := by
  decide +kernel

/-- Octets of digits are those of characters that are digits. -/
theorem digit_char (b : UInt8) :
    (isDigit b = true → (Char.ofUInt8 b).isDigit = true) ∧
      (isHexDigit b = true → Digits.isHexDigit (Char.ofUInt8 b) = true) := by
  have each := digit_of_octet ⟨b.toNat, b.toNat_lt⟩
  simpa only [UInt8.ofNat_toNat] using each

def Ascii (cs : List Char) : Prop := ∀ c ∈ cs, c.toNat < 128

theorem Ascii.append {cs ds : List Char} (h : Ascii cs) (k : Ascii ds) : Ascii (cs ++ ds) := by
  intro c hc
  rcases List.mem_append.mp hc with hc | hc
  · exact h c hc
  · exact k c hc

theorem digits_octets {ds : List Char} (h : ds.all Char.isDigit = true) :
    Ascii ds ∧ (ds.map Char.toUInt8).all isDigit = true := by
  rw [List.all_eq_true] at h
  refine ⟨fun c hc => (digit_octet (h c hc)).1, ?_⟩
  rw [List.all_map, List.all_eq_true]
  exact fun c hc => (digit_octet (h c hc)).2

theorem exponent_octets {cs : List Char} (h : (Numeral.readExponent cs).isSome = true) :
    Ascii cs ∧ IsExponent (cs.map Char.toUInt8) := by
  cases cs with
  | nil => exact ⟨by simp [Ascii], .inl rfl⟩
  | cons c cs =>
    obtain ⟨sign, digits, rfl, hsign, parts⟩ : ∃ sign digits, cs = sign ++ digits ∧
        sign ∈ ([[], ['+'], ['-']] : List (List Char)) ∧ (Numeral.splitSign cs).2 = digits := by
      unfold Numeral.splitSign
      split
      · exact ⟨['-'], _, rfl, by simp, rfl⟩
      · exact ⟨['+'], _, rfl, by simp, rfl⟩
      · exact ⟨[], _, rfl, by simp, rfl⟩
    simp only [Numeral.readExponent, parts] at h
    split at h
    · rename_i valid
      obtain ⟨letter, some, all⟩ := valid
      obtain ⟨ascii, octets⟩ := digits_octets all
      simp only [List.mem_cons, List.not_mem_nil, or_false] at hsign
      have mark : Ascii (c :: sign) ∧ (c :: sign).map Char.toUInt8 ∈
          ([[101], [69], [101, 43], [101, 45], [69, 43], [69, 45]] : List (List UInt8)) := by
        rcases letter with rfl | rfl <;> rcases hsign with rfl | rfl | rfl <;>
          simp [Ascii] <;> decide
      refine ⟨mark.1.append ascii, .inr ⟨_, _, ?_, mark.2, ?_, octets⟩⟩
      · simp
      · simpa using some
    · cases h

def PieceDecimal (cs : List Char) (rest : List UInt8) : Prop :=
  ∃ b bs, Ascii cs ∧ cs.map Char.toUInt8 = b :: bs ∧
    (isDigit b = true ∨ b = 46 ∧ ((bs ++ rest).head?.map isDigit).getD false = true) ∧
    decimal b (bs ++ rest) = .token ⟨.literal, Utf8.decode (b :: bs)⟩ bs.length

section PieceDecimal

variable {ws fs es : List Char} {rest : List UInt8}

theorem pieceDecimal_whole (some : ws ≠ []) (whole : ws.all Char.isDigit = true)
    (expo : (Numeral.readExponent es).isSome = true) (stops : Stops rest) :
    PieceDecimal (ws ++ es) rest := by
  obtain ⟨wholeAscii, wholeOctets⟩ := digits_octets whole
  obtain ⟨expoAscii, expo⟩ := exponent_octets expo
  cases ws with
  | nil => exact absurd rfl some
  | cons w ws =>
    simp only [List.map_cons, List.all_cons, Bool.and_eq_true] at wholeOctets
    refine ⟨w.toUInt8, ws.map Char.toUInt8 ++ es.map Char.toUInt8,
      wholeAscii.append expoAscii, ?_, .inl wholeOctets.1,
      decimal_whole wholeOctets.1 wholeOctets.2 expo stops⟩
    simp

theorem pieceDecimal_point (some : ¬ (ws = [] ∧ fs = [])) (whole : ws.all Char.isDigit = true)
    (places : fs.all Char.isDigit = true) (expo : (Numeral.readExponent es).isSome = true)
    (stops : Stops rest) : PieceDecimal (ws ++ '.' :: (fs ++ es)) rest := by
  obtain ⟨wholeAscii, wholeOctets⟩ := digits_octets whole
  obtain ⟨placesAscii, placesOctets⟩ := digits_octets places
  obtain ⟨expoAscii, expo⟩ := exponent_octets expo
  have ascii : Ascii (ws ++ '.' :: (fs ++ es)) :=
    wholeAscii.append (Ascii.append (by simp [Ascii] : Ascii ['.']) (placesAscii.append expoAscii))
  cases ws with
  | nil =>
    cases fs with
    | nil => exact absurd ⟨rfl, rfl⟩ some
    | cons f fs =>
      refine ⟨46, (f :: fs).map Char.toUInt8 ++ es.map Char.toUInt8, ascii, ?_, .inr ⟨rfl, ?_⟩,
        decimal_fraction placesOctets expo stops⟩
      · simp
        rfl
      · simp only [List.map_cons, List.all_cons, Bool.and_eq_true] at placesOctets
        simp [placesOctets.1]
  | cons w ws =>
    simp only [List.map_cons, List.all_cons, Bool.and_eq_true] at wholeOctets
    refine ⟨w.toUInt8, ws.map Char.toUInt8 ++ 46 :: fs.map Char.toUInt8 ++ es.map Char.toUInt8,
      ascii, ?_, .inl wholeOctets.1,
      decimal_point wholeOctets.1 wholeOctets.2 placesOctets expo stops⟩
    simp
    rfl

theorem piece_decimal {cs : List Char} (h : (Numeral.readDecimal false cs).isSome = true)
    (stops : Stops rest) : PieceDecimal cs rest := by
  rw [← List.takeWhile_append_dropWhile (p := Char.isDigit) (l := cs)]
  simp only [Numeral.readDecimal] at h
  have whole : (cs.takeWhile Char.isDigit).all Char.isDigit = true := List.all_takeWhile
  split at h
  · rename_i after point
    split at h
    · cases h
    · rename_i some
      rw [Option.isSome_map] at h
      rw [point, ← List.takeWhile_append_dropWhile (p := Char.isDigit) (l := after)]
      exact pieceDecimal_point some whole List.all_takeWhile h stops
  · split at h
    · cases h
    · rename_i some
      rw [Option.isSome_map] at h
      exact pieceDecimal_whole some whole h stops

end PieceDecimal

theorem decode_ascii {cs : List Char} (h : Ascii cs) :
    Utf8.decode (cs.map Char.toUInt8) = String.ofList cs := by
  have back := Utf8.decode_encode (String.ofList cs)
  rwa [Utf8.encode, String.toList_ofList, encode_ascii h] at back

theorem toUInt8_ascii : ∀ n : Fin 128, (Char.ofNat n).toUInt8 = UInt8.ofNat n := by decide

theorem eq_of_toUInt8 {c : Char} {n : Nat} (h : c.toNat < 128) (small : n < 128)
    (same : c.toUInt8 = UInt8.ofNat n) : c = Char.ofNat n := by
  have octet := toUInt8_ascii ⟨c.toNat, h⟩
  simp only [Char.ofNat_toNat] at octet
  have values := congrArg UInt8.toNat (octet.symm.trans same)
  rw [UInt8.toNat_ofNat', UInt8.toNat_ofNat', Nat.mod_eq_of_lt (by omega),
    Nat.mod_eq_of_lt (by omega)] at values
  rw [← values, Char.ofNat_toNat]

/-- A hexadecimal number is handed on with a small x. -/
def smallX : List Char → List Char
  | '0' :: 'X' :: digits => '0' :: 'x' :: digits
  | cs => cs

theorem piece_hexadecimal {x : Char} {digits : List Char} {rest : List UInt8}
    (hx : x = 'x' ∨ x = 'X') (some : digits ≠ []) (all : digits.all Digits.isHexDigit = true)
    (stops : Stops rest) :
    Ascii ('0' :: x :: digits) ∧
      piece 48 (x.toUInt8 :: digits.map Char.toUInt8 ++ rest) =
        .token ⟨.literal, String.ofList ('0' :: 'x' :: digits)⟩
          (x.toUInt8 :: digits.map Char.toUInt8).length := by
  rw [List.all_eq_true] at all
  have ascii : Ascii digits := fun c hc => (hexDigit_octet (all c hc)).1
  have octets : (digits.map Char.toUInt8).all isHexDigit = true := by
    rw [List.all_map, List.all_eq_true]
    exact fun c hc => (hexDigit_octet (all c hc)).2
  have mark : Ascii ['0', x] := by rcases hx with rfl | rfl <;> simp [Ascii]
  have text : Utf8.decode (48 :: 120 :: digits.map Char.toUInt8) =
      String.ofList ('0' :: 'x' :: digits) :=
    decode_ascii (Ascii.append (by simp [Ascii] : Ascii ['0', 'x']) ascii)
  refine ⟨mark.append ascii, ?_⟩
  have read := hexadecimal_run (by simpa using some) octets stops
  rw [piece_number (.inl rfl), List.cons_append]
  have hex : (48 : UInt8) = 48 ∧ (x.toUInt8 = 120 ∨ x.toUInt8 = 88) := by
    rcases hx with rfl | rfl <;> decide
  simp only [number, hex, and_self, if_true, read, text, List.length_cons, List.length_map]
  rw [Nat.add_comm]

/-- A decimal has no x behind a zero, nor has what ends it. -/
theorem number_decimal {cs : List Char} {b : UInt8} {bs rest : List UInt8} (ascii : Ascii cs)
    (bytes : cs.map Char.toUInt8 = b :: bs) (stops : Stops rest)
    (small : ∀ digits, cs ≠ '0' :: 'x' :: digits) (large : ∀ digits, cs ≠ '0' :: 'X' :: digits) :
    number b (bs ++ rest) = decimal b (bs ++ rest) := by
  unfold number
  split
  · rename_i x more behind
    refine if_neg ?_
    rintro ⟨rfl, hx⟩
    match cs, bytes with
    | c :: cs, bytes =>
      obtain ⟨zero, tail⟩ := List.cons.inj bytes
      obtain rfl : c = '0' := eq_of_toUInt8 (n := 48) (ascii c (by simp)) (by decide) zero
      match cs, tail with
      | [], tail =>
        subst tail
        have behind : rest = x :: more := behind
        obtain ⟨name, -⟩ := stops x (by simp [behind])
        rcases hx with rfl | rfl <;> cases name
      | d :: ds, tail =>
        rw [← tail, List.map_cons, List.cons_append] at behind
        obtain ⟨same, -⟩ := List.cons.inj behind
        have bound := ascii d (by simp)
        rcases hx with rfl | rfl
        · exact small ds (by rw [eq_of_toUInt8 (n := 120) bound (by decide) same])
        · exact large ds (by rw [eq_of_toUInt8 (n := 88) bound (by decide) same])
  · rfl

theorem piece_numeral {cs : List Char} {rest : List UInt8}
    (h : (Numeral.readUnsigned false cs).isSome = true) (stops : Stops rest) :
    ∃ b bs, Ascii cs ∧ cs.map Char.toUInt8 = b :: bs ∧
      piece b (bs ++ rest) = .token ⟨.literal, String.ofList (smallX cs)⟩ bs.length := by
  unfold Numeral.readUnsigned at h
  split at h
  · rename_i digits
    split at h
    · rename_i valid
      obtain ⟨ascii, read⟩ := piece_hexadecimal (.inl rfl) valid.1 valid.2 stops
      exact ⟨48, _, ascii, rfl, read⟩
    · cases h
  · rename_i digits
    split at h
    · rename_i valid
      obtain ⟨ascii, read⟩ := piece_hexadecimal (.inr rfl) valid.1 valid.2 stops
      exact ⟨48, _, ascii, rfl, read⟩
    · cases h
  · rename_i small large
    obtain ⟨b, bs, ascii, bytes, starts, read⟩ := piece_decimal h stops
    refine ⟨b, bs, ascii, bytes, ?_⟩
    have same : smallX cs = cs := by
      unfold smallX
      split
      · exact absurd rfl (large _)
      · rfl
    have text : Utf8.decode (b :: bs) = String.ofList cs := bytes ▸ decode_ascii ascii
    rw [piece_number starts, number_decimal ascii bytes stops small large, read, text, same]

/-- A numeral with nothing behind it that could belong to it is read as a literal. -/
theorem next_numeral {text : String} (h : (Numeral.readUnsigned false text.toList).isSome = true)
    {nl : Bool} {p : Position} {rest : List UInt8} (stops : Stops rest) :
    next nl 0 p (Utf8.encode text ++ rest) =
      (⟨.literal, String.ofList (smallX text.toList)⟩, p.pass (Utf8.encode text), rest) := by
  obtain ⟨b, bs, ascii, bytes, read⟩ := piece_numeral h stops
  rw [Utf8.encode, encode_ascii ascii, bytes, List.cons_append]
  exact next_piece read

end Scriptlet.Lexer
