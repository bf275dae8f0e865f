import Scriptlet.Lexer
import Scriptlet.Proofs.Utf8

/-!
Lexing of single tokens. A symbol, a name or a literal in quotes that has a blank or nothing behind
it is read as the token it spells, whatever the phase and wherever it stands.
-/

namespace Scriptlet

/-! ### Streams of tokens -/

namespace Input

/-- Reading from `i` gives these tokens, in any phase, and from then on the same as reading from
`k`. -/
def Streams (i : Input) : List Token → Input → Prop
  | [], k => ∀ phase, i.next phase = k.next phase
  | t :: ts, k => ∃ j, (∀ phase, i.next phase = (t, j)) ∧ j.Streams ts k

theorem streams_refl (i : Input) : i.Streams [] i := fun _ => rfl

theorem Streams.append {ts us : List Token} {i j k : Input} (h : i.Streams ts j)
    (h' : j.Streams us k) : i.Streams (ts ++ us) k := by
  induction ts generalizing i with
  | nil =>
    cases us with
    | nil => exact fun phase => (h phase).trans (h' phase)
    | cons t us =>
      obtain ⟨j', read, rest⟩ := h'
      exact ⟨j', fun phase => (h phase).trans (read phase), rest⟩
  | cons t ts ih =>
    obtain ⟨i', read, rest⟩ := h
    exact ⟨i', read, ih rest⟩

theorem Streams.split {ts us : List Token} {i k : Input} (h : i.Streams (ts ++ us) k) :
    ∃ j, i.Streams ts j ∧ j.Streams us k := by
  induction ts generalizing i with
  | nil => exact ⟨i, i.streams_refl, h⟩
  | cons t ts ih =>
    obtain ⟨i', read, rest⟩ := h
    obtain ⟨j, first, second⟩ := ih rest
    exact ⟨j, ⟨i', read, first⟩, second⟩

/-- Nothing is put back once a token has been read. -/
theorem putback_next (i : Input) (phase : Phase) : (i.next phase).2.putback = none := by
  obtain ⟨rest, position, putback⟩ := i
  cases putback <;> rfl

/-- A token that was read and put back is read again. -/
theorem next_unread_next {i j : Input} {t : Token} {phase : Phase} (h : i.next phase = (t, j))
    (phase' : Phase) : (j.unread t).next phase' = (t, j) := by
  have empty : j.putback = none := by
    have := i.putback_next phase
    rwa [h] at this
  obtain ⟨rest, position, putback⟩ := j
  obtain rfl : putback = none := empty
  rfl

end Input

def Position.pass (p : Position) (bytes : List UInt8) : Position := bytes.foldl advance p

@[simp] theorem Position.pass_append (p : Position) (bytes more : List UInt8) :
    p.pass (bytes ++ more) = (p.pass bytes).pass more :=
  List.foldl_append

namespace Lexer

def Gap (rest : List UInt8) : Prop := ∀ b ∈ rest.head?, b = 32 ∨ b = 9

theorem next_blank {nl : Bool} {p : Position} {b : UInt8} {rest : List UInt8}
    (h : isCallBlank b = true) : next nl 0 p (b :: rest) = next nl 0 (p.advance b) rest := by
  have blank : piece b rest = .blank 0 := by
    simp only [isCallBlank, Bool.or_eq_true, beq_iff_eq] at h
    rcases h with (rfl | rfl) | rfl <;> rfl
  rw [next, blank]

theorem next_blanks {nl : Bool} {p : Position} (rest : List UInt8) :
    next nl 0 p rest =
      next nl 0 (p.pass (rest.takeWhile isCallBlank)) (rest.dropWhile isCallBlank) := by
  induction rest generalizing p with
  | nil => rfl
  | cons b rest ih =>
    by_cases h : isCallBlank b = true
    · rw [next_blank h, ih, List.takeWhile_cons_of_pos h, List.dropWhile_cons_of_pos h]
      rfl
    · rw [List.takeWhile_cons_of_neg h, List.dropWhile_cons_of_neg h]
      rfl

theorem next_piece {nl : Bool} {p : Position} {b : UInt8} {bs rest : List UInt8} {t : Token}
    (h : piece b (bs ++ rest) = .token t bs.length) :
    next nl 0 p (b :: (bs ++ rest)) = (t, p.pass (b :: bs), rest) := by
  simp [next, h, Position.pass]

end Lexer

/-! ### Symbols -/

def Token.Kind.isSymbol : Token.Kind → Bool
  | .error | .literal | .function | .newline | .identifier | .eof => false
  | .operator op => op.isRelational || op.isArithmetic
  | .bump op => op = .increment || op = .decrement
  | _ => true

namespace Lexer

theorem piece_symbol {kind : Token.Kind} (h : kind.isSymbol = true) {rest : List UInt8}
    (gap : Gap rest) : ∃ b bs, Utf8.encode kind.spelling = b :: bs ∧
      piece b (bs ++ rest) = .token (.symbol kind) bs.length := by
  have shapes : rest = [] ∨ (∃ more, rest = 32 :: more) ∨ ∃ more, rest = 9 :: more := by
    cases rest with
    | nil => exact .inl rfl
    | cons b more =>
      rcases gap b rfl with rfl | rfl
      · exact .inr (.inl ⟨more, rfl⟩)
      · exact .inr (.inr ⟨more, rfl⟩)
  cases kind with
  | error | literal | function | newline | identifier | eof => cases h
  | operator op =>
    cases op with
    | increment | decrement => cases h
    | _ => rcases shapes with rfl | ⟨more, rfl⟩ | ⟨more, rfl⟩ <;> exact ⟨_, _, rfl, rfl⟩
  | bump op =>
    cases op with
    | increment | decrement =>
      rcases shapes with rfl | ⟨more, rfl⟩ | ⟨more, rfl⟩ <;> exact ⟨_, _, rfl, rfl⟩
    | _ => cases h
  | logical op =>
    cases op <;> rcases shapes with rfl | ⟨more, rfl⟩ | ⟨more, rfl⟩ <;> exact ⟨_, _, rfl, rfl⟩
  | _ => rcases shapes with rfl | ⟨more, rfl⟩ | ⟨more, rfl⟩ <;> exact ⟨_, _, rfl, rfl⟩

theorem next_symbol {kind : Token.Kind} (h : kind.isSymbol = true) {nl : Bool} {p : Position}
    {rest : List UInt8} (gap : Gap rest) :
    next nl 0 p (Utf8.encode kind.spelling ++ rest) =
      (.symbol kind, p.pass (Utf8.encode kind.spelling), rest) := by
  obtain ⟨b, bs, bytes, read⟩ := piece_symbol h gap
  rw [bytes, List.cons_append]
  exact next_piece read

end Lexer

/-! ### Names -/

def isName (text : String) : Bool :=
  match Utf8.encode text with
  | b :: bs => Lexer.isNameStart b && bs.all Lexer.isNameByte && (Lexer.keyword? text).isNone
  | [] => false

structure Name where
  text : String
  valid : isName text = true
  deriving DecidableEq, Repr

namespace Lexer

def marks : List Char :=
  ['\n', '/', '(', ')', '{', '}', ';', ',', '*', '%', '+', '-', '<', '>', '=', '!', '&', '|', '"',
    '\'']

theorem nameStart_plain : ∀ n : Fin 256, isNameStart (UInt8.ofNat n) = true →
    isBlank (UInt8.ofNat n) = false ∧ isDigit (UInt8.ofNat n) = false ∧
      (UInt8.ofNat n == 46) = false ∧ Char.ofUInt8 (UInt8.ofNat n) ∉ marks := by
  decide +kernel

theorem piece_unmarked {b : UInt8} (h : Char.ofUInt8 b ∉ marks) (bs : List UInt8) :
    piece b bs =
      if isBlank b then .blank 0
      else if isDigit b || (b == 46 && (bs.head?.map isDigit).getD false) then number b bs
      else if isNameStart b then word b bs
      else .error ("Illegal character '" ++ showByte b ++ "'") 0 := by
  unfold piece
  split
  iterate 20
    rename_i mark
    exact absurd (mark ▸ (by decide : _ ∈ marks)) h
  rfl

theorem piece_word {b : UInt8} (h : isNameStart b = true) (bs : List UInt8) :
    piece b bs = word b bs := by
  have plain := nameStart_plain ⟨b.toNat, b.toNat_lt⟩
  simp only [UInt8.ofNat_toNat] at plain
  obtain ⟨blank, digit, point, unmarked⟩ := plain h
  simp [piece_unmarked unmarked, blank, digit, point, h]

theorem drop_takeWhile (f : UInt8 → Bool) (bytes : List UInt8) :
    bytes.drop (bytes.takeWhile f).length = bytes.dropWhile f := by
  have parts : bytes = bytes.takeWhile f ++ bytes.dropWhile f :=
    List.takeWhile_append_dropWhile.symm
  exact (congrArg (List.drop _) parts).trans List.drop_left

/-- A run that ends where something else follows. -/
theorem takeWhile_run {α : Type} {f : α → Bool} {run rest : List α} (all : run.all f = true)
    (stop : ∀ b ∈ rest.head?, f b = false) : (run ++ rest).takeWhile f = run := by
  rw [List.takeWhile_append_of_pos (by simpa using all)]
  cases rest with
  | nil => simp
  | cons b more =>
    have no : ¬f b = true := by simp [stop b rfl]
    rw [List.takeWhile_cons_of_neg no, List.append_nil]

theorem Gap.not_name {rest : List UInt8} (gap : Gap rest) :
    ∀ b ∈ rest.head?, isNameByte b = false := by
  intro b hb
  rcases gap b hb with rfl | rfl <;> rfl

/-- Behind a name the blanks are taken along, up to what tells whether it is a function's. -/
def nameKind (rest : List UInt8) : Token.Kind :=
  if (rest.dropWhile isCallBlank).head? = some 40 then .function else .identifier

theorem next_name (n : Name) {nl : Bool} {p : Position} {rest : List UInt8} (gap : Gap rest) :
    next nl 0 p (Utf8.encode n.text ++ rest) =
      (⟨nameKind rest, n.text⟩, (p.pass (Utf8.encode n.text)).pass (rest.takeWhile isCallBlank),
        rest.dropWhile isCallBlank) := by
  obtain ⟨text, valid⟩ := n
  have back : Utf8.decode (Utf8.encode text) = text := Utf8.decode_encode text
  rw [isName] at valid
  dsimp only
  cases hbytes : Utf8.encode text with
  | nil => simp [hbytes] at valid
  | cons b bs =>
    simp only [hbytes, Bool.and_eq_true, Option.isNone_iff_eq_none] at valid back
    obtain ⟨⟨start, tail⟩, noKeyword⟩ := valid
    have taken : (bs ++ rest).takeWhile isNameByte = bs := takeWhile_run tail gap.not_name
    have parts : rest = rest.takeWhile isCallBlank ++ rest.dropWhile isCallBlank :=
      List.takeWhile_append_dropWhile.symm
    have read : piece b ((bs ++ rest.takeWhile isCallBlank) ++ rest.dropWhile isCallBlank) =
        .token ⟨nameKind rest, text⟩ (bs ++ rest.takeWhile isCallBlank).length := by
      rw [List.append_assoc, ← parts, piece_word start]
      simp only [word, taken, back, noKeyword, List.drop_left, drop_takeWhile, nameKind,
        List.length_append]
    have whole : next nl 0 p _ = _ := next_piece read
    rw [List.append_assoc, ← parts] at whole
    rw [List.cons_append, whole]
    simp [Position.pass]

end Lexer

/-! ### Literals in quotes -/

def quotedChar (c : Char) : List Char :=
  if c = '\n' then ['\\', 'n'] else if c = '"' ∨ c = '\\' then ['\\', c] else [c]

def quote (text : String) : String :=
  String.ofList ('"' :: (text.toList.flatMap quotedChar ++ ['"']))

namespace Lexer

def isPlain (b : UInt8) : Bool := b != 10 && b != 34 && b != 92

theorem string_plain {value : List UInt8} {width : Nat} {bs rest : List UInt8}
    (plain : ∀ b ∈ bs, isPlain b = true) :
    string 34 value width .plain (bs ++ rest) =
      string 34 (bs.reverse ++ value) (width + bs.length) .plain rest := by
  induction bs generalizing value width with
  | nil => rfl
  | cons b bs ih =>
    have this := plain b (by simp)
    simp only [isPlain, Bool.and_eq_true, bne_iff_ne, ne_eq] at this
    obtain ⟨⟨newline, quote⟩, escape⟩ := this
    rw [List.cons_append, string, if_neg newline, if_neg quote, if_neg escape,
      ih fun b hb => plain b (by simp [hb])]
    simp only [List.reverse_cons, List.append_assoc, List.singleton_append, List.length_cons]
    congr 1
    omega

/-- A small octet stands for the character of its value. -/
theorem toNat_of_mem_encodeChar {c : Char} {b : UInt8} (h : b ∈ String.utf8EncodeChar c)
    (small : b.toNat < 128) : c.val.toNat = b.toNat := by
  simp only [String.utf8EncodeChar] at h
  generalize c.val.toNat = v at h ⊢
  split at h
  · rw [List.mem_singleton] at h
    subst h
    rw [UInt8.toNat_ofNat']
    omega
  · exfalso
    split at h
    · simp only [List.mem_cons, List.not_mem_nil, or_false] at h
      rcases h with rfl | rfl <;> rw [UInt8.toNat_ofNat'] at small <;> omega
    · split at h
      · simp only [List.mem_cons, List.not_mem_nil, or_false] at h
        rcases h with rfl | rfl | rfl <;> rw [UInt8.toNat_ofNat'] at small <;> omega
      · simp only [List.mem_cons, List.not_mem_nil, or_false] at h
        rcases h with rfl | rfl | rfl | rfl <;> rw [UInt8.toNat_ofNat'] at small <;> omega

theorem plain_encodeChar {c : Char} (newline : c ≠ '\n') (quote : c ≠ '"') (escape : c ≠ '\\') :
    ∀ b ∈ String.utf8EncodeChar c, isPlain b = true := by
  intro b hb
  have char : ∀ d : Char, b.toNat = d.val.toNat → b.toNat < 128 → c = d := by
    intro d value small
    have same := toNat_of_mem_encodeChar hb small
    exact Char.ext (UInt32.toNat_inj.mp (same.trans value))
  simp only [isPlain, Bool.and_eq_true, bne_iff_ne, ne_eq]
  refine ⟨⟨?_, ?_⟩, ?_⟩
  · rintro rfl
    exact newline (char '\n' rfl (by decide))
  · rintro rfl
    exact quote (char '"' rfl (by decide))
  · rintro rfl
    exact escape (char '\\' rfl (by decide))

theorem string_quotedChar (c : Char) {value : List UInt8} {width : Nat} {rest : List UInt8} :
    string 34 value width .plain ((quotedChar c).flatMap String.utf8EncodeChar ++ rest) =
      string 34 ((String.utf8EncodeChar c).reverse ++ value)
        (width + ((quotedChar c).flatMap String.utf8EncodeChar).length) .plain rest := by
  unfold quotedChar
  split
  · subst c
    rfl
  · split
    · rename_i marked
      rcases marked with rfl | rfl <;> rfl
    · rename_i newline marked
      rw [not_or] at marked
      simpa using string_plain (plain_encodeChar newline marked.1 marked.2)

/-- A text in double quotes is read as a literal of its own, whatever it holds. -/
theorem string_quoted (cs : List Char) {value : List UInt8} {width : Nat} {rest : List UInt8} :
    string 34 value width .plain
        ((cs.flatMap quotedChar).flatMap String.utf8EncodeChar ++ 34 :: rest) =
      .token ⟨.literal, Utf8.decode (value.reverse ++ cs.flatMap String.utf8EncodeChar)⟩
        (width + ((cs.flatMap quotedChar).flatMap String.utf8EncodeChar).length + 1) := by
  induction cs generalizing value width with
  | nil => simp [string]
  | cons c cs ih =>
    rw [List.flatMap_cons, List.flatMap_append, List.append_assoc, string_quotedChar, ih]
    simp [List.flatMap_cons, Nat.add_assoc]

theorem next_quote (text : String) {nl : Bool} {p : Position} {rest : List UInt8} :
    next nl 0 p (Utf8.encode (quote text) ++ rest) =
      (⟨.literal, text⟩, p.pass (Utf8.encode (quote text)), rest) := by
  have bytes : Utf8.encode (quote text) =
      34 :: ((text.toList.flatMap quotedChar).flatMap String.utf8EncodeChar ++ [34]) := by
    simp only [Utf8.encode, quote, String.toList_ofList, List.flatMap_cons, List.flatMap_append]
    rfl
  have read : piece 34 (((text.toList.flatMap quotedChar).flatMap String.utf8EncodeChar ++ [34]) ++
      rest) = .token ⟨.literal, text⟩
        ((text.toList.flatMap quotedChar).flatMap String.utf8EncodeChar ++ [34]).length := by
    show string 34 [] 0 .plain _ = _
    rw [List.append_assoc, List.singleton_append, string_quoted]
    have back := Utf8.decode_encode text
    rw [Utf8.encode] at back
    simp [back]
  rw [bytes, List.cons_append]
  exact next_piece read

end Lexer

end Scriptlet
