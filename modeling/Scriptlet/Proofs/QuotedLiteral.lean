import Mathlib.Algebra.Group.Nat.Defs
import Scriptlet.Proofs.Numerals

/-!
Literals in quotes. A literal is read octet by octet, while what stands in it are elements of one
character or several: characters that stand for themselves, and escapes. What reading a literal
gathers is the encoding of the characters that its elements stand for, so that nothing is replaced
when it is turned into a text.
-/

namespace Scriptlet.Lexer

open Utf8

/-! ### The octets that a literal is made from -/

def put (octets : List UInt8) (r : Option (List UInt8 × List UInt8)) :
    Option (List UInt8 × List UInt8) :=
  r.map fun (more, left) => (octets ++ more, left)

/-- What reading a literal gathers up to its closing quote, and what is left behind that; nothing
if the literal is malformed. -/
def gathered (quote : UInt8) : Quoted → List UInt8 → Option (List UInt8 × List UInt8)
  | _, [] => none
  | .plain, b :: bs =>
    if b = 10 then none
    else if b = quote then some ([], bs)
    else if b = 92 then gathered quote .escape bs
    else put [b] (gathered quote .plain bs)
  | .escape, b :: bs =>
    if b = 120 then gathered quote (.digits 2 0) bs
    else if b = 117 then gathered quote (.digits 4 0) bs
    else put [escaped b] (gathered quote .plain bs)
  | .digits wanted n, b :: bs =>
    if !isHexDigit b then none
    else
      let n := n * 16 + hexValue b
      if 1 < wanted then gathered quote (.digits (wanted - 1) n) bs
      else
        match scalar? n with
        | some c => put (String.utf8EncodeChar c) (gathered quote .plain bs)
        | none => none

section Gathered

variable {quote : UInt8} {b : UInt8} {bs octets left value : List UInt8} {width : Nat}
  {r : Option (List UInt8 × List UInt8)}

@[simp] theorem put_some (more : List UInt8) :
    put octets (some (more, left)) = some (octets ++ more, left) := rfl

@[simp] theorem put_nil : put [] r = r := by
  cases r <;> rfl

@[simp] theorem put_put (more : List UInt8) : put octets (put more r) = put (octets ++ more) r := by
  cases r <;> simp [put]

@[simp] theorem isSome_put : (put octets r).isSome = r.isSome := Option.isSome_map

def Piece.Makes (p : Piece) (value : List UInt8) (width : Nat) (bs : List UInt8) :
    Option (List UInt8 × List UInt8) → Prop
  | some (octets, left) => ∃ taken, bs = taken ++ left ∧
      p = .token ⟨.literal, decode (value.reverse ++ octets)⟩ (width + taken.length)
  | none => ∃ message n, p = .error message n

theorem Piece.Makes.put {p : Piece} (h : p.Makes (octets.reverse ++ value) (width + 1) bs r) :
    p.Makes value width (b :: bs) (put octets r) := by
  cases r with
  | none => exact h
  | some found =>
    obtain ⟨more, left⟩ := found
    obtain ⟨taken, parts, made⟩ := h
    refine ⟨b :: taken, by rw [parts]; rfl, ?_⟩
    rw [made, List.reverse_append, List.reverse_reverse, List.append_assoc, List.length_cons]
    congr 1
    omega

theorem Piece.Makes.skip {p : Piece} (h : p.Makes value (width + 1) bs r) :
    p.Makes value width (b :: bs) r := by
  have skipped : p.Makes value width (b :: bs) (Lexer.put [] r) := Piece.Makes.put h
  rwa [put_nil] at skipped

/-- A literal is the text of what is gathered, and malformed if nothing is. -/
theorem string_makes (q : Quoted) :
    (string quote value width q bs).Makes value width bs (gathered quote q bs) := by
  induction bs generalizing q value width with
  | nil => cases q <;> exact ⟨_, _, rfl⟩
  | cons b bs ih =>
    cases q with
    | plain =>
      rw [string, gathered]
      by_cases newline : b = 10
      · rw [if_pos newline, if_pos newline]
        exact ⟨_, _, rfl⟩
      rw [if_neg newline, if_neg newline]
      by_cases closes : b = quote
      · rw [if_pos closes, if_pos closes]
        exact ⟨[b], rfl, by simp⟩
      rw [if_neg closes, if_neg closes]
      by_cases escape : b = 92
      · rw [if_pos escape, if_pos escape]
        exact (ih .escape).skip
      · rw [if_neg escape, if_neg escape]
        exact Piece.Makes.put (ih .plain)
    | escape =>
      rw [string, gathered]
      by_cases hex : b = 120
      · rw [if_pos hex, if_pos hex]
        exact (ih (.digits 2 0)).skip
      rw [if_neg hex, if_neg hex]
      by_cases unicode : b = 117
      · rw [if_pos unicode, if_pos unicode]
        exact (ih (.digits 4 0)).skip
      · rw [if_neg unicode, if_neg unicode]
        exact Piece.Makes.put (ih .plain)
    | digits wanted n =>
      rw [string, gathered]
      by_cases other : (!isHexDigit b) = true
      · rw [if_pos other, if_pos other]
        exact ⟨_, _, rfl⟩
      rw [if_neg other, if_neg other]
      dsimp only
      by_cases more : 1 < wanted
      · rw [if_pos more, if_pos more]
        exact (ih _).skip
      rw [if_neg more, if_neg more]
      cases scalar? (n * 16 + hexValue b) with
      | none => exact ⟨_, _, rfl⟩
      | some c => exact Piece.Makes.put (ih .plain)

end Gathered

/-! ### Characters -/

section Characters

variable {quote : UInt8} {bs : List UInt8}

theorem gathered_plain {b : UInt8} (newline : b ≠ 10) (inside : b ≠ quote) (plain : b ≠ 92) :
    gathered quote .plain (b :: bs) = put [b] (gathered quote .plain bs) := by
  rw [gathered, if_neg newline, if_neg inside, if_neg plain]

theorem gathered_run {run : List UInt8} (plain : ∀ b ∈ run, b ≠ 10 ∧ b ≠ quote ∧ b ≠ 92) :
    gathered quote .plain (run ++ bs) = put run (gathered quote .plain bs) := by
  induction run with
  | nil => rw [List.nil_append, put_nil]
  | cons b run ih =>
    obtain ⟨newline, inside, escape⟩ := plain b (by simp)
    rw [List.cons_append, gathered_plain newline inside escape,
      ih fun d hd => plain d (by simp [hd]), put_put]
    rfl

/-- The octets of a character are not those of another one that is a single octet. -/
theorem encodeChar_avoids {c d : Char} {b : UInt8} (small : d.toNat < 128) (other : c ≠ d)
    (hb : b ∈ String.utf8EncodeChar c) : b ≠ d.toUInt8 := by
  rintro rfl
  have value : d.toUInt8.toNat = d.toNat := by
    have octet := toUInt8_ascii ⟨d.toNat, small⟩
    simp only [Char.ofNat_toNat] at octet
    rw [octet, UInt8.toNat_ofNat']
    omega
  have same := toNat_of_mem_encodeChar hb (by rw [value]; exact small)
  exact other (Char.ext (UInt32.toNat_inj.mp (same.trans value)))

/-- A character beyond ASCII is all octets beyond ASCII. -/
theorem encodeChar_large {c : Char} {b : UInt8} (large : 128 ≤ c.toNat)
    (hb : b ∈ String.utf8EncodeChar c) : 128 ≤ b.toNat := by
  refine Nat.le_of_not_lt fun small => ?_
  have same := toNat_of_mem_encodeChar hb small
  have value : c.val.toNat = c.toNat := rfl
  omega

theorem encodeChar_cons (c : Char) : ∃ b more, String.utf8EncodeChar c = b :: more ∧
    ∀ d ∈ more, 128 ≤ d.toNat := by
  by_cases small : c.toNat < 128
  · exact ⟨_, [], encodeChar_ascii small, nofun⟩
  · cases octets : String.utf8EncodeChar c with
    | nil => exact absurd octets String.utf8EncodeChar_ne_nil
    | cons b more =>
      refine ⟨b, more, rfl, fun d hd => encodeChar_large (Nat.le_of_not_lt small) ?_⟩
      rw [octets]
      exact List.mem_cons_of_mem b hd

end Characters

/-! ### Digits -/

section Numbers

open Digits

variable {quote : UInt8} {digits : List Char} {n : Nat}

/-- The digits of an escape have the same value as characters and as octets. -/
theorem hexValue_ascii : ∀ n : Fin 128, Digits.isHexDigit (Char.ofNat n) = true →
    hexValue (Char.ofNat n).toUInt8 = digitValue (Char.ofNat n) ∧
      digitValue (Char.ofNat n) < 16 := by
  decide +kernel

theorem hexValue_octet {c : Char} (h : Digits.isHexDigit c = true) :
    hexValue c.toUInt8 = digitValue c ∧ digitValue c < 16 := by
  have value := hexValue_ascii ⟨c.toNat, (hexDigit_octet h).1⟩
  simp only [Char.ofNat_toNat] at value
  exact value h

theorem foldl_push_lt (hex : digits.all Digits.isHexDigit = true) (n : Nat) :
    digits.foldl (push 16) n < (n + 1) * 16 ^ digits.length := by
  induction digits generalizing n with
  | nil => simp
  | cons c digits ih =>
    rw [List.all_cons, Bool.and_eq_true] at hex
    have digit := (hexValue_octet hex.1).2
    calc (c :: digits).foldl (push 16) n
        = digits.foldl (push 16) (push 16 n c) := rfl
      _ < (push 16 n c + 1) * 16 ^ digits.length := ih hex.2 _
      _ ≤ ((n + 1) * 16) * 16 ^ digits.length := by
          refine Nat.mul_le_mul_right _ ?_
          rw [push]
          omega
      _ = (n + 1) * 16 ^ (c :: digits).length := by
          rw [List.length_cons, Nat.pow_succ', Nat.mul_assoc]

theorem toNat_lt (hex : digits.all Digits.isHexDigit = true) :
    toNat 16 digits < 16 ^ digits.length := by
  have below := foldl_push_lt hex 0
  rwa [Nat.zero_add, Nat.one_mul] at below

/-- An escape that is read to its last digit gathers the character of its number. -/
theorem gathered_digits {c : Char} {bs : List UInt8} (nonempty : digits ≠ [])
    (hex : digits.all Digits.isHexDigit = true)
    (scalar : scalar? (digits.foldl (push 16) n) = some c) :
    gathered quote (.digits digits.length n) (digits.flatMap String.utf8EncodeChar ++ bs) =
      put (String.utf8EncodeChar c) (gathered quote .plain bs) := by
  induction digits generalizing n with
  | nil => exact absurd rfl nonempty
  | cons d digits ih =>
    rw [List.all_cons, Bool.and_eq_true] at hex
    obtain ⟨small, octet⟩ := hexDigit_octet hex.1
    have next : n * 16 + hexValue d.toUInt8 = push 16 n d := by
      rw [push, (hexValue_octet hex.1).1]
    rw [List.flatMap_cons, encodeChar_ascii small, List.append_assoc, List.singleton_append,
      gathered, if_neg (by simp [octet])]
    simp only [next]
    by_cases more : digits = []
    · subst more
      have scalar : scalar? (push 16 n d) = some c := scalar
      simp [scalar]
    · have wanted : 1 < (d :: digits).length := by
        have := List.length_pos_iff.mpr more
        rw [List.length_cons]
        omega
      rw [if_pos wanted, List.length_cons, Nat.add_sub_cancel]
      exact ih more hex.2 scalar

/-- An octet that is a digit is a character of its own. -/
theorem hexDigit_of_octet {c : Char} {b : UInt8} (inside : b ∈ String.utf8EncodeChar c)
    (hex : isHexDigit b = true) : Digits.isHexDigit c = true ∧ b = c.toUInt8 := by
  have digit := (digit_char b).2
  have value : (Char.ofUInt8 b).toNat = b.toNat := UInt8.toNat_toUInt32 b
  have small : b.toNat < 128 := value ▸ (hexDigit_octet (digit hex)).1
  have same : c = Char.ofUInt8 b :=
    Char.ext (UInt32.toNat_inj.mp ((toNat_of_mem_encodeChar inside small).trans value.symm))
  subst same
  have octet := encodeChar_ascii (hexDigit_octet (digit hex)).1
  rw [octet, List.mem_singleton] at inside
  exact ⟨digit hex, inside⟩

/-- Where an escape gathers anything its digits are there. -/
theorem digits_of_gathered {wanted : Nat} {text : List Char} (some : wanted ≠ 0)
    (h : (gathered quote (.digits wanted n) (text.flatMap String.utf8EncodeChar)).isSome = true) :
    ∃ digits more, text = digits ++ more ∧ digits.length = wanted ∧
      digits.all Digits.isHexDigit = true ∧
      (scalar? (digits.foldl (push 16) n)).isSome = true := by
  induction text generalizing wanted n with
  | nil => cases h
  | cons c text ih =>
    obtain ⟨b, tail, octets, -⟩ := encodeChar_cons c
    have inside : b ∈ String.utf8EncodeChar c := by rw [octets]; exact List.mem_cons_self
    rw [List.flatMap_cons, octets, List.cons_append, gathered] at h
    by_cases other : (!isHexDigit b) = true
    · rw [if_pos other] at h
      cases h
    rw [if_neg other] at h
    obtain ⟨digit, rfl⟩ := hexDigit_of_octet inside (by simpa using other)
    obtain rfl : tail = [] := by
      rw [encodeChar_ascii (hexDigit_octet digit).1] at octets
      exact (List.cons.inj octets).2.symm
    have next : n * 16 + hexValue c.toUInt8 = push 16 n c := by
      rw [push, (hexValue_octet digit).1]
    simp only [next, List.nil_append] at h
    by_cases last : 1 < wanted
    · rw [if_pos last] at h
      obtain ⟨digits, more, rfl, length, hex, scalar⟩ := ih (by omega) h
      refine ⟨c :: digits, more, rfl, ?_, ?_, scalar⟩
      · rw [List.length_cons, length]
        omega
      · rw [List.all_cons, digit, hex]
        rfl
    · rw [if_neg last] at h
      refine ⟨[c], text, rfl, ?_, ?_, ?_⟩
      · rw [List.length_singleton]
        omega
      · rw [List.all_cons, digit]
        rfl
      · show (scalar? (push 16 n c)).isSome = true
        cases scalar : scalar? (push 16 n c) with
        | none =>
          rw [scalar] at h
          cases h
        | some d => rfl

end Numbers

/-! ### Elements -/

inductive Mark where
  | single
  | double
  deriving DecidableEq, Repr

def Mark.char : Mark → Char
  | single => '\''
  | double => '"'

def Mark.octet (mark : Mark) : UInt8 := mark.char.toUInt8

/-- The letters that are escaped for another character, and that character. -/
def lettered : List (Char × Char) :=
  [('n', '\n'), ('t', '\t'), ('r', '\r'), ('b', '\x08'), ('f', '\x0c'), ('v', '\x0b'),
    ('0', '\x00')]

inductive Element (mark : Mark) where
  | plain (c : Char) (inside : c ≠ mark.char) (unescaped : c ≠ '\\') (inLine : c ≠ '\n')
  | letter (name value : Char) (known : (name, value) ∈ lettered)
  | byte (digits : List Char) (two : digits.length = 2)
      (hex : digits.all Digits.isHexDigit = true)
  | unicode (digits : List Char) (four : digits.length = 4)
      (hex : digits.all Digits.isHexDigit = true)
      (scalar : ¬(0xd800 ≤ Digits.toNat 16 digits ∧ Digits.toNat 16 digits ≤ 0xdfff))
  /-- An escaped character that stands for itself, be it a quote or a newline. -/
  | itself (c : Char) (other : c ∉ ['n', 't', 'r', 'b', 'f', 'v', '0', 'x', 'u'])

namespace Element

variable {mark : Mark}

def written : Element mark → List Char
  | plain c _ _ _ => [c]
  | letter name _ _ => ['\\', name]
  | byte digits _ _ => '\\' :: 'x' :: digits
  | unicode digits _ _ _ => '\\' :: 'u' :: digits
  | itself c _ => ['\\', c]

def value : Element mark → Char
  | plain c _ _ _ => c
  | letter _ value _ => value
  | byte digits _ _ => Char.ofNat (Digits.toNat 16 digits)
  | unicode digits _ _ _ => Char.ofNat (Digits.toNat 16 digits)
  | itself c _ => c

def literal (elements : List (Element mark)) : String :=
  String.ofList (mark.char :: (elements.flatMap written ++ [mark.char]))

def text (elements : List (Element mark)) : String := String.ofList (elements.map value)

end Element

section Elements

variable {mark : Mark} {bs : List UInt8}

theorem Mark.octet_ne_escape : mark.octet ≠ 92 := by
  cases mark <;> decide

theorem Mark.octet_ne_newline : mark.octet ≠ 10 := by
  cases mark <;> decide

theorem gathered_escape :
    gathered mark.octet .plain (92 :: bs) = gathered mark.octet .escape bs := by
  rw [gathered, if_neg (by decide), if_neg Mark.octet_ne_escape.symm, if_pos rfl]

theorem gathered_closes : gathered mark.octet .plain (mark.octet :: bs) = some ([], bs) := by
  rw [gathered, if_neg Mark.octet_ne_newline, if_pos rfl]

theorem escaped_itself {b : UInt8} (other : b ∉ ([110, 116, 114, 98, 102, 118, 48] : List UInt8)) :
    escaped b = b := by
  simp only [List.mem_cons, List.not_mem_nil, or_false, not_or] at other
  obtain ⟨n, t, r, b', f, v, zero⟩ := other
  rw [escaped, if_neg n, if_neg t, if_neg r, if_neg b', if_neg f, if_neg v, if_neg zero]

theorem scalar_of_lt {n : Nat} (small : n < 0x10000) (scalar : ¬(0xd800 ≤ n ∧ n ≤ 0xdfff)) :
    scalar? n = some (Char.ofNat n) := by
  refine if_pos ?_
  unfold Nat.isValidChar
  omega

/-- A numeric escape gathers the octets of the character with this number. -/
theorem gathered_number (mark : Mark) (bs : List UInt8) {digits : List Char}
    (hex : digits.all Digits.isHexDigit = true) (some : digits ≠ []) (four : digits.length ≤ 4)
    (scalar : ¬(0xd800 ≤ Digits.toNat 16 digits ∧ Digits.toNat 16 digits ≤ 0xdfff)) :
    gathered mark.octet (.digits digits.length 0) (digits.flatMap String.utf8EncodeChar ++ bs) =
      put (String.utf8EncodeChar (Char.ofNat (Digits.toNat 16 digits)))
        (gathered mark.octet .plain bs) := by
  have small : Digits.toNat 16 digits < 16 ^ 4 :=
    Nat.lt_of_lt_of_le (toNat_lt hex) (Nat.pow_le_pow_right (by decide) four)
  exact gathered_digits some hex (scalar_of_lt small scalar)

/-- A character that has no other meaning when it is escaped is read octet by octet. -/
theorem gathered_itself {c : Char} (other : c ∉ ['n', 't', 'r', 'b', 'f', 'v', '0', 'x', 'u']) :
    gathered mark.octet .escape (String.utf8EncodeChar c ++ bs) =
      put (String.utf8EncodeChar c) (gathered mark.octet .plain bs) := by
  obtain ⟨b, more, octets, large⟩ := encodeChar_cons c
  have avoids : ∀ d : Char, d.toNat < 128 → c ≠ d → b ≠ d.toUInt8 := fun d small different =>
    encodeChar_avoids small different (by rw [octets]; exact List.mem_cons_self)
  simp only [List.mem_cons, List.not_mem_nil, or_false, not_or] at other
  obtain ⟨n, t, r, b', f, v, zero, x, u⟩ := other
  have hex : b ≠ 120 := avoids 'x' (by decide) x
  have unicode : b ≠ 117 := avoids 'u' (by decide) u
  have single : escaped b = b := by
    refine escaped_itself ?_
    simp only [List.mem_cons, List.not_mem_nil, or_false, not_or]
    exact ⟨avoids 'n' (by decide) n, avoids 't' (by decide) t, avoids 'r' (by decide) r,
      avoids 'b' (by decide) b', avoids 'f' (by decide) f, avoids 'v' (by decide) v,
      avoids '0' (by decide) zero⟩
  have plain : ∀ d ∈ more, d ≠ 10 ∧ d ≠ mark.octet ∧ d ≠ 92 := by
    intro d hd
    have ascii : ∀ e : UInt8, e.toNat < 128 → d ≠ e := by
      rintro e small rfl
      exact absurd (large d hd) (Nat.not_le.mpr small)
    exact ⟨ascii 10 (by decide), ascii mark.octet (by cases mark <;> decide), ascii 92 (by decide)⟩
  rw [octets, List.cons_append, gathered, if_neg hex, if_neg unicode, single, gathered_run plain,
    put_put]
  rfl

theorem not_surrogate {n : Nat} (h : (scalar? n).isSome = true) :
    ¬(0xd800 ≤ n ∧ n ≤ 0xdfff) := by
  unfold scalar? at h
  split at h
  · rename_i valid
    unfold Nat.isValidChar at valid
    omega
  · cases h

theorem Element.written_pos (e : Element mark) : 0 < e.written.length := by
  cases e <;> exact Nat.succ_pos _

/-- An element gathers the octets of the character that it stands for. -/
theorem gathered_element (e : Element mark) :
    gathered mark.octet .plain (e.written.flatMap String.utf8EncodeChar ++ bs) =
      put (String.utf8EncodeChar e.value) (gathered mark.octet .plain bs) := by
  cases e with
  | plain c inside unescaped inLine =>
    show gathered mark.octet .plain ((String.utf8EncodeChar c ++ []) ++ bs) = _
    rw [List.append_nil]
    refine gathered_run fun b hb => ⟨?_, ?_, ?_⟩
    · exact encodeChar_avoids (d := '\n') (by decide) inLine hb
    · exact encodeChar_avoids (by cases mark <;> decide) inside hb
    · exact encodeChar_avoids (d := '\\') (by decide) unescaped hb
  | letter name value known =>
    simp only [lettered, List.mem_cons, Prod.mk.injEq, List.not_mem_nil, or_false] at known
    rcases known with ⟨rfl, rfl⟩ | ⟨rfl, rfl⟩ | ⟨rfl, rfl⟩ | ⟨rfl, rfl⟩ | ⟨rfl, rfl⟩ | ⟨rfl, rfl⟩ |
      ⟨rfl, rfl⟩ <;> exact gathered_escape
  | byte digits two hex =>
    have small : Digits.toNat 16 digits < 16 ^ 2 := two ▸ toNat_lt hex
    have read := gathered_number mark bs hex (List.ne_nil_of_length_pos (by omega)) (by omega)
      (by omega)
    rw [two] at read
    exact gathered_escape.trans read
  | unicode digits four hex scalar =>
    have read := gathered_number mark bs hex (List.ne_nil_of_length_pos (by omega)) (by omega)
      scalar
    rw [four] at read
    exact gathered_escape.trans read
  | itself c other =>
    show gathered mark.octet .plain (92 :: ((String.utf8EncodeChar c ++ []) ++ bs)) = _
    rw [List.append_nil, gathered_escape]
    exact gathered_itself other

/-- The elements of a literal gather the encoding of the text that they stand for. -/
theorem gathered_elements (elements : List (Element mark)) :
    gathered mark.octet .plain
        ((elements.flatMap Element.written).flatMap String.utf8EncodeChar ++ mark.octet :: bs) =
      some (encode (Element.text elements), bs) := by
  induction elements with
  | nil => exact gathered_closes
  | cons e elements ih =>
    rw [List.flatMap_cons, List.flatMap_append, List.append_assoc, gathered_element, ih]
    simp [Element.text, encode]

/-- Behind a backslash an element goes on, if anything is gathered. -/
theorem escaped_of_gathered {text : List Char}
    (h : (gathered mark.octet .escape (text.flatMap String.utf8EncodeChar)).isSome = true) :
    ∃ (e : Element mark) (rest : List Char), '\\' :: text = e.written ++ rest := by
  cases text with
  | nil => cases h
  | cons c text =>
    by_cases hex : c = 'x'
    · subst hex
      obtain ⟨digits, more, rfl, two, hex, -⟩ := digits_of_gathered (by decide : 2 ≠ 0) h
      exact ⟨.byte digits two hex, more, rfl⟩
    by_cases unicode : c = 'u'
    · subst unicode
      obtain ⟨digits, more, rfl, four, hex, scalar⟩ := digits_of_gathered (by decide : 4 ≠ 0) h
      exact ⟨.unicode digits four hex (not_surrogate scalar), more, rfl⟩
    by_cases named : ∃ value, (c, value) ∈ lettered
    · obtain ⟨value, known⟩ := named
      exact ⟨.letter c value known, text, rfl⟩
    · refine ⟨.itself c ?_, text, rfl⟩
      simp only [lettered, List.mem_cons, Prod.mk.injEq, List.not_mem_nil, or_false, exists_or,
        exists_eq_right, not_or] at named
      simp [named, hex, unicode]

/-- A literal that gathers anything is made of elements. -/
theorem elements_of_gathered (text : List Char)
    (h : (gathered mark.octet .plain (text.flatMap String.utf8EncodeChar)).isSome = true) :
    ∃ (elements : List (Element mark)) (more : List Char),
      text = elements.flatMap Element.written ++ mark.char :: more := by
  induction hn : text.length using Nat.strongRecOn generalizing text with
  | ind n ih =>
    subst hn
    have onward : ∀ (e : Element mark) (rest : List Char), text = e.written ++ rest →
        ∃ (elements : List (Element mark)) (more : List Char),
          text = elements.flatMap Element.written ++ mark.char :: more := by
      rintro e rest rfl
      rw [List.flatMap_append, gathered_element, isSome_put] at h
      have shorter : rest.length < (e.written ++ rest).length := by
        rw [List.length_append]
        exact Nat.lt_add_of_pos_left e.written_pos
      obtain ⟨elements, more, rfl⟩ := ih rest.length shorter rest h rfl
      exact ⟨e :: elements, more, by rw [List.flatMap_cons, List.append_assoc]⟩
    cases text with
    | nil => cases h
    | cons c text =>
      by_cases newline : c = '\n'
      · subst newline
        cases h
      by_cases closes : c = mark.char
      · exact ⟨[], text, by rw [closes]; rfl⟩
      by_cases escape : c = '\\'
      · subst escape
        obtain ⟨e, rest, parts⟩ := escaped_of_gathered (gathered_escape ▸ h)
        exact onward e rest parts
      · exact onward (.plain c closes escape newline) text rfl

end Elements

/-! ### Literals -/

variable {mark : Mark} {bs left octets : List UInt8}

theorem piece_quoted : piece mark.octet bs = string mark.octet [] 0 .plain bs := by
  cases mark <;> rfl

theorem piece_makes :
    (piece mark.octet bs).Makes [] 0 bs (gathered mark.octet .plain bs) := by
  rw [piece_quoted]
  exact string_makes .plain

/-- The piece that a quote starts, where the literal is well-formed. -/
theorem piece_gathered (h : gathered mark.octet .plain bs = some (octets, left)) :
    ∃ taken, bs = taken ++ left ∧
      piece mark.octet bs = .token ⟨.literal, decode octets⟩ taken.length := by
  have made : (piece mark.octet bs).Makes [] 0 bs _ := piece_makes
  rw [h] at made
  obtain ⟨taken, parts, made⟩ := made
  refine ⟨taken, parts, ?_⟩
  rw [made, List.reverse_nil, List.nil_append, Nat.zero_add]

theorem piece_malformed (h : gathered mark.octet .plain bs = none) :
    ∃ message n, piece mark.octet bs = .error message n := by
  have made : (piece mark.octet bs).Makes [] 0 bs _ := piece_makes
  rwa [h] at made

theorem encode_ofList (text : List Char) :
    encode (String.ofList text) = text.flatMap String.utf8EncodeChar := by
  rw [encode, String.toList_ofList]

theorem encodeChar_mark : String.utf8EncodeChar mark.char = [mark.octet] := by
  cases mark <;> rfl

/-- What is gathered from a text is the encoding of a text. -/
theorem encoded_of_gathered {text : List Char}
    (h : gathered mark.octet .plain (text.flatMap String.utf8EncodeChar) = some (octets, left)) :
    ∃ value, octets = encode value := by
  obtain ⟨elements, more, rfl⟩ := elements_of_gathered text (by rw [h]; rfl)
  rw [List.flatMap_append, List.flatMap_cons, encodeChar_mark, List.singleton_append,
    gathered_elements] at h
  cases h
  exact ⟨_, rfl⟩

theorem encode_literal (elements : List (Element mark)) :
    encode (Element.literal elements) = mark.octet ::
      ((elements.flatMap Element.written).flatMap String.utf8EncodeChar ++ [mark.octet]) := by
  rw [Element.literal, encode_ofList, List.flatMap_cons, List.flatMap_append, encodeChar_mark,
    List.flatMap_singleton, encodeChar_mark]
  rfl

end Scriptlet.Lexer

namespace Scriptlet.Input

open Lexer Utf8

variable {mark : Mark} {phase : Phase} {p : Position} {bytes octets left : List UInt8}

/-- What follows a quote is read as the text of what is gathered. -/
theorem next_gathered (phase : Phase) (p : Position)
    (h : gathered mark.octet .plain bytes = some (octets, left)) :
    ∃ taken, bytes = taken ++ left ∧ Input.next ⟨mark.octet :: bytes, p, none⟩ phase =
      (⟨.literal, decode octets⟩, ⟨left, p.pass (mark.octet :: taken), none⟩) := by
  obtain ⟨taken, rfl, read⟩ := piece_gathered h
  exact ⟨taken, rfl, by simp only [Input.next, next_piece read]⟩

/-- A literal is read behind a quote only where something is gathered. -/
theorem gathered_of_next {value : String} {j : Input}
    (read : Input.next ⟨mark.octet :: bytes, p, none⟩ phase = (⟨.literal, value⟩, j)) :
    ∃ octets, gathered mark.octet .plain bytes = some (octets, j.rest) ∧ value = decode octets := by
  cases found : gathered mark.octet .plain bytes with
  | none =>
    obtain ⟨message, n, error⟩ := piece_malformed found
    simp only [Input.next, Lexer.next, error, Piece.error] at read
    cases congrArg (fun r => r.1.kind) read
  | some r =>
    obtain ⟨octets, left⟩ := r
    obtain ⟨taken, -, made⟩ := next_gathered phase p found
    rw [read] at made
    cases made
    exact ⟨octets, rfl, rfl⟩

/-- Whatever elements stand between two quotes are read as the characters that they stand for. -/
theorem next_elements (phase : Phase) (p : Position) (elements : List (Element mark))
    (rest : List UInt8) :
    Input.next ⟨encode (Element.literal elements) ++ rest, p, none⟩ phase =
      (⟨.literal, Element.text elements⟩,
        ⟨rest, p.pass (encode (Element.literal elements)), none⟩) := by
  have found : gathered mark.octet .plain (_ ++ mark.octet :: rest) = _ :=
    gathered_elements elements
  obtain ⟨taken, parts, read⟩ := next_gathered phase p found
  obtain rfl : _ ++ [mark.octet] = taken :=
    List.append_cancel_right ((List.append_cons _ mark.octet rest).symm.trans parts)
  rw [parts, decode_encode] at read
  rw [encode_literal, List.cons_append]
  exact read

/-- Literals in quotes decode exactly. Whatever elements stand between two quotes, they are read as
the characters that they stand for, and nothing of what follows is taken. The value of a literal is
always what the octets gathered for it decode to, and behind a quote in a text these octets are the
encoding of that value, so that none of them is replaced. -/
theorem next_literal (mark : Mark) (phase : Phase) (p : Position) :
    (∀ (elements : List (Element mark)) (rest : List UInt8),
      Input.next ⟨encode (Element.literal elements) ++ rest, p, none⟩ phase =
        (⟨.literal, Element.text elements⟩,
          ⟨rest, p.pass (encode (Element.literal elements)), none⟩) ∧
      gathered mark.octet .plain (encode (String.ofList (elements.flatMap Element.written)) ++
        mark.octet :: rest) = some (encode (Element.text elements), rest)) ∧
    (∀ (bytes : List UInt8) (value : String) (j : Input),
      Input.next ⟨mark.octet :: bytes, p, none⟩ phase = (⟨.literal, value⟩, j) →
      ∃ octets, gathered mark.octet .plain bytes = some (octets, j.rest) ∧ value = decode octets ∧
        ((∃ text, bytes = encode text) → octets = encode value)) := by
  constructor
  · intro elements rest
    exact ⟨next_elements phase p elements rest, encode_ofList _ ▸ gathered_elements elements⟩
  · intro bytes value j read
    obtain ⟨octets, found, rfl⟩ := gathered_of_next read
    refine ⟨octets, found, rfl, ?_⟩
    rintro ⟨text, rfl⟩
    obtain ⟨value, rfl⟩ := encoded_of_gathered found
    rw [decode_encode]

theorem next_literal_escaped :
    Input.next ⟨encode "'\\é\\x41'" ++ [59], {}, none⟩ .expr =
      (⟨.literal, "éA"⟩, ⟨[59], Position.pass {} (encode "'\\é\\x41'"), none⟩) :=
  ((next_literal .single .expr {}).1 [.itself 'é' (by decide), .byte ['4', '1'] rfl rfl] [59]).1

end Scriptlet.Input
