import Scriptlet.Argument
import Scriptlet.Proofs.Grammar

/-!
Argument formats as they may be written, and what they make of arguments. A format is described in
three ways: by the reader, by a grammar whose recognizer never goes back, and by its parts with the
separators between them. All three tell the same formats. Arguments are then matched against the
kinds one by one, and the first that does not fit is the one a fault names.
-/

namespace Scriptlet.Argument

def Kind.letter : Kind → Char
  | .string => 's'
  | .integer => 'd'
  | .float => 'f'
  | .boolean => 'b'

theorem kindOf?_eq_some {c : Char} {kind : Kind} : kindOf? c = some kind ↔ c = kind.letter := by
  constructor
  · intro h
    unfold kindOf? at h
    split at h <;> cases h <;> rfl
  · rintro rfl
    cases kind <;> rfl

namespace Format

variable {f : Format} {cs seps : List Char}

/-! ### Formats as they are written -/

def partChars (part : Kind × List Char) : List Char := '%' :: part.1.letter :: part.2

def endChars : Option (List Char) → List Char
  | some seps => '%' :: '*' :: seps
  | none => []

/-- The parts of a format: separators, specifiers with separators behind them, and at the end
perhaps `%*` with the separators behind it. -/
structure Spelling where
  lead : List Char
  parts : List (Kind × List Char)
  rest : Option (List Char)
  leading : lead.all isSeparator = true
  between : ∀ part ∈ parts, part.2.all isSeparator = true
  trailing : ∀ seps ∈ rest, seps.all isSeparator = true

namespace Spelling

def chars (s : Spelling) : List Char := s.lead ++ (s.parts.flatMap partChars ++ endChars s.rest)

def text (s : Spelling) : String := String.ofList s.chars

def format (s : Spelling) : Format := ⟨s.parts.map Prod.fst, s.rest.isSome⟩

theorem text_eq {s : Spelling} {format : String} : s.text = format ↔ s.chars = format.toList := by
  rw [← String.toList_inj, text, String.toList_ofList]

def atEnd (rest : Option (List Char)) (trailing : ∀ seps ∈ rest, seps.all isSeparator = true) :
    Spelling :=
  ⟨[], [], rest, rfl, nofun, trailing⟩

def separated (s : Spelling) (c : Char) (h : isSeparator c = true) : Spelling :=
  { s with lead := c :: s.lead, leading := by rw [List.all_cons, h, s.leading]; rfl }

def specified (s : Spelling) (kind : Kind) : Spelling where
  lead := []
  parts := (kind, s.lead) :: s.parts
  rest := s.rest
  leading := rfl
  between := List.forall_mem_cons.mpr ⟨s.leading, s.between⟩
  trailing := s.trailing

theorem chars_specified (s : Spelling) (kind : Kind) :
    (s.specified kind).chars = '%' :: kind.letter :: s.chars := by
  simp [chars, specified, partChars]

end Spelling

/-! ### The reader -/

theorem readChars_separator {c : Char} (h : isSeparator c = true) :
    readChars (c :: cs) = readChars cs := by
  have plain : c ≠ '%' := by
    rintro rfl
    cases h
  rw [readChars, if_pos h]
  · exact fun _ rest => absurd rest plain
  · exact fun _ _ rest => absurd rest plain

theorem readChars_separators (h : seps.all isSeparator = true) :
    readChars (seps ++ cs) = readChars cs := by
  induction seps with
  | nil => rfl
  | cons c seps ih =>
    rw [List.all_cons, Bool.and_eq_true] at h
    rw [List.cons_append, readChars_separator h.1, ih h.2]

theorem readChars_specifier (kind : Kind) (cs : List Char) :
    readChars ('%' :: kind.letter :: cs) =
      (readChars cs).map fun f => { f with kinds := kind :: f.kinds } := by
  cases kind <;> rfl

theorem readChars_endChars {rest : Option (List Char)}
    (trailing : ∀ seps ∈ rest, seps.all isSeparator = true) :
    readChars (endChars rest) = some ⟨[], rest.isSome⟩ := by
  cases rest with
  | none => rfl
  | some seps => rw [endChars, readChars, if_pos (trailing seps rfl)]; rfl

theorem readChars_spelling (s : Spelling) : readChars s.chars = some s.format := by
  obtain ⟨lead, parts, rest, leading, between, trailing⟩ := s
  simp only [Spelling.chars, Spelling.format, readChars_separators leading]
  clear lead leading
  induction parts with
  | nil => exact readChars_endChars trailing
  | cons part parts ih =>
    obtain ⟨here, behind⟩ := List.forall_mem_cons.mp between
    rw [List.flatMap_cons, partChars, List.append_assoc, List.cons_append, List.cons_append,
      readChars_specifier, readChars_separators here, ih behind]
    rfl

theorem exists_spelling (read : readChars cs = some f) :
    ∃ s : Spelling, s.chars = cs ∧ s.format = f := by
  induction cs using readChars.induct generalizing f with
  | case1 =>
    cases read
    exact ⟨.atEnd none nofun, rfl, rfl⟩
  | case2 cs seps =>
    rw [readChars, if_pos seps] at read
    cases read
    exact ⟨.atEnd (some cs) fun _ h => Option.mem_some.mp h ▸ seps, rfl, rfl⟩
  | case3 cs seps =>
    rw [readChars, if_neg seps] at read
    cases read
  | case4 c cs noRest kind letter ih =>
    rw [readChars, letter] at read
    · obtain ⟨g, inner, rfl⟩ := Option.map_eq_some_iff.mp read
      obtain ⟨s, rfl, rfl⟩ := ih inner
      refine ⟨s.specified kind, ?_, rfl⟩
      rw [Spelling.chars_specified, kindOf?_eq_some.mp letter]
    · exact noRest
  | case5 c cs noRest unknown =>
    rw [readChars, unknown] at read
    · cases read
    · exact noRest
  | case6 c cs noRest noLetter seps ih =>
    rw [readChars, if_pos seps] at read
    · obtain ⟨s, rfl, rfl⟩ := ih read
      exact ⟨s.separated c seps, rfl, rfl⟩
    · exact noRest
    · exact noLetter
  | case7 c cs noRest noLetter other =>
    rw [readChars, if_neg other] at read
    · cases read
    · exact noRest
    · exact noLetter

theorem readChars_eq_some :
    readChars cs = some f ↔ ∃ s : Spelling, s.chars = cs ∧ s.format = f := by
  refine ⟨exists_spelling, ?_⟩
  rintro ⟨s, rfl, rfl⟩
  exact readChars_spelling s

theorem isSome_readChars : (readChars cs).isSome = true ↔ ∃ s : Spelling, s.chars = cs := by
  simp only [Option.isSome_iff_exists, readChars_eq_some]
  exact ⟨fun ⟨_, s, same, _⟩ => ⟨s, same⟩, fun ⟨s, same⟩ => ⟨s.format, s, same, rfl⟩⟩

theorem read_eq_ok {format : String} :
    read format = .ok f ↔ ∃ s : Spelling, s.text = format ∧ s.format = f := by
  simp only [Spelling.text_eq, ← readChars_eq_some, read]
  cases readChars format.toList <;> simp

theorem read_eq_error {format : String} {cause : Fault.Cause} : read format = .error cause ↔
    cause = .argumentFormat format ∧ ¬ ∃ s : Spelling, s.text = format := by
  simp only [Spelling.text_eq, ← isSome_readChars, read]
  cases readChars format.toList <;> simp [eq_comm]

/-! ### The recognizer -/

open Grammar

def specifier (c : Char) : Grammar := seq (char '%') (char c)

def argument : Grammar :=
  alt (specifier 's') (alt (specifier 'd') (alt (specifier 'f') (specifier 'b')))

def separators : Grammar := many isSeparator

def grammar : Grammar :=
  seq (maybe separators) (seq (star (seq argument (maybe separators)))
    (maybe (seq (specifier '*') (maybe separators))))

theorem mem_specifier {c : Char} : cs ∈ (specifier c).language ↔ cs = ['%', c] := by
  rw [specifier, mem_seq]
  constructor
  · rintro ⟨_, percent, _, letter, rfl⟩
    rw [mem_char.mp percent, mem_char.mp letter]
    rfl
  · rintro rfl
    exact ⟨['%'], mem_char.mpr rfl, [c], mem_char.mpr rfl, rfl⟩

theorem mem_argument : cs ∈ argument.language ↔ ∃ kind : Kind, cs = ['%', kind.letter] := by
  simp only [argument, mem_alt, mem_specifier]
  constructor
  · rintro (rfl | rfl | rfl | rfl)
    exacts [⟨.string, rfl⟩, ⟨.integer, rfl⟩, ⟨.float, rfl⟩, ⟨.boolean, rfl⟩]
  · rintro ⟨kind, rfl⟩
    cases kind <;> simp [Kind.letter]

theorem mem_part : cs ∈ (seq argument (maybe separators)).language ↔
    ∃ part : Kind × List Char, part.2.all isSeparator = true ∧ cs = partChars part := by
  rw [mem_seq]
  constructor
  · rintro ⟨_, letter, seps, all, rfl⟩
    obtain ⟨kind, rfl⟩ := mem_argument.mp letter
    exact ⟨(kind, seps), mem_maybe_many.mp all, rfl⟩
  · rintro ⟨⟨kind, seps⟩, all, rfl⟩
    exact ⟨_, mem_argument.mpr ⟨kind, rfl⟩, seps, mem_maybe_many.mpr all, rfl⟩

theorem exists_parts (h : cs ∈ (star (seq argument (maybe separators))).language) :
    ∃ parts : List (Kind × List Char), parts.flatMap partChars = cs ∧
      ∀ part ∈ parts, part.2.all isSeparator = true := by
  obtain ⟨pieces, rfl, each⟩ := Language.mem_kstar.mp h
  clear h
  induction pieces with
  | nil => exact ⟨[], rfl, nofun⟩
  | cons piece pieces ih =>
    obtain ⟨here, behind⟩ := List.forall_mem_cons.mp each
    obtain ⟨parts, chars, between⟩ := ih behind
    obtain ⟨part, seps, rfl⟩ := mem_part.mp here
    refine ⟨part :: parts, ?_, List.forall_mem_cons.mpr ⟨seps, between⟩⟩
    rw [List.flatMap_cons, chars, List.flatten_cons]

theorem exists_end (h : cs ∈ (maybe (seq (specifier '*') (maybe separators))).language) :
    ∃ rest, endChars rest = cs ∧ ∀ seps ∈ rest, seps.all isSeparator = true := by
  rcases mem_maybe.mp h with marked | rfl
  · obtain ⟨_, star, seps, all, rfl⟩ := mem_seq.mp marked
    obtain rfl := mem_specifier.mp star
    refine ⟨some seps, rfl, fun _ h => ?_⟩
    rw [← Option.mem_some.mp h]
    exact mem_maybe_many.mp all
  · exact ⟨none, rfl, nofun⟩

theorem exists_spelling_of_mem (h : cs ∈ grammar.language) : ∃ s : Spelling, s.chars = cs := by
  obtain ⟨lead, leading, _, inner, rfl⟩ := mem_seq.mp h
  obtain ⟨_, middle, _, last, rfl⟩ := mem_seq.mp inner
  obtain ⟨parts, rfl, between⟩ := exists_parts middle
  obtain ⟨rest, rfl, trailing⟩ := exists_end last
  exact ⟨⟨lead, parts, rest, mem_maybe_many.mp leading, between, trailing⟩, rfl⟩

theorem run_specifier (c d : Char) (cs : List Char) :
    (specifier c).run ('%' :: d :: cs) = if d = c then some cs else none := by
  rw [specifier, run_seq_of_some (run_char_self '%' _), run_char_cons]

/-- No two specifiers have a letter in common, so that of the alternatives at most one fits. -/
theorem run_argument (d : Char) (cs : List Char) :
    argument.run ('%' :: d :: cs) = (kindOf? d).map fun _ => cs := by
  simp only [argument, run, run_specifier]
  cases letter : kindOf? d with
  | some kind =>
    obtain rfl := kindOf?_eq_some.mp letter
    cases kind <;> simp [Kind.letter]
  | none =>
    have other : ∀ kind : Kind, d ≠ kind.letter := fun kind same => by
      rw [kindOf?_eq_some.mpr same] at letter
      cases letter
    have string := other .string
    have integer := other .integer
    have float := other .float
    have boolean := other .boolean
    simp only [Kind.letter] at string integer float boolean
    simp [string, integer, float, boolean]

theorem run_argument_endChars (rest : Option (List Char)) :
    argument.run (endChars rest) = none := by
  cases rest with
  | none => rfl
  | some seps => exact run_argument '*' seps

theorem run_separators (all : seps.all isSeparator = true)
    (stop : ∀ c ∈ cs.head?, c = '%') : (maybe separators).run (seps ++ cs) = some cs := by
  rw [separators, run_maybe_many, dropWhile_run all fun c first => by rw [stop c first]; rfl]

/-- A part of a format is taken with all its separators, since what follows begins with no other. -/
theorem run_part (part : Kind × List Char) (all : part.2.all isSeparator = true)
    (stop : ∀ c ∈ cs.head?, c = '%') :
    (seq argument (maybe separators)).run (partChars part ++ cs) = some cs := by
  have letter : argument.run (partChars part ++ cs) = some (part.2 ++ cs) := by
    rw [partChars, List.cons_append, List.cons_append, run_argument, kindOf?_eq_some.mpr rfl]
    rfl
  rw [run_seq_of_some letter, run_separators all stop]

theorem head?_endChars (rest : Option (List Char)) : ∀ c ∈ (endChars rest).head?, c = '%' := by
  cases rest <;> simp [endChars]

theorem head?_parts (parts : List (Kind × List Char)) (rest : Option (List Char)) :
    ∀ c ∈ (parts.flatMap partChars ++ endChars rest).head?, c = '%' := by
  cases parts with
  | nil => exact head?_endChars rest
  | cons part parts => simp [partChars]

theorem greedy_parts {parts : List (Kind × List Char)} (rest : Option (List Char))
    (between : ∀ part ∈ parts, part.2.all isSeparator = true) {limit : Nat}
    (enough : parts.length ≤ limit) :
    greedy (seq argument (maybe separators)).run limit (parts.flatMap partChars ++ endChars rest) =
      endChars rest := by
  induction limit generalizing parts with
  | zero =>
    obtain rfl := List.eq_nil_of_length_eq_zero (Nat.le_zero.mp enough)
    rfl
  | succ limit ih =>
    cases parts with
    | nil =>
      rw [List.flatMap_nil, List.nil_append, greedy,
        run_seq_of_none (run_argument_endChars rest)]
    | cons part parts =>
      obtain ⟨here, behind⟩ := List.forall_mem_cons.mp between
      rw [List.flatMap_cons, List.append_assoc, greedy,
        run_part part here (head?_parts parts rest)]
      exact ih behind (Nat.le_of_succ_le_succ enough)

theorem length_le_parts (parts : List (Kind × List Char)) (tail : List Char) :
    parts.length ≤ (parts.flatMap partChars ++ tail).length := by
  induction parts with
  | nil => exact Nat.zero_le _
  | cons part parts ih =>
    rw [List.flatMap_cons, List.append_assoc, List.length_append, List.length_cons, partChars,
      List.length_cons]
    omega

theorem run_spelling (s : Spelling) : grammar.run s.chars = some [] := by
  obtain ⟨lead, parts, rest, leading, between, trailing⟩ := s
  have middle : (star (seq argument (maybe separators))).run
      (parts.flatMap partChars ++ endChars rest) = some (endChars rest) := by
    rw [run, greedy_parts rest between (length_le_parts parts _)]
  rw [grammar, Spelling.chars, run_seq_of_some (run_separators leading (head?_parts parts rest)),
    run_seq_of_some middle]
  cases rest with
  | none => rfl
  | some seps =>
    have last : (seq (specifier '*') (maybe separators)).run ('%' :: '*' :: seps) = some [] := by
      have marked : (specifier '*').run ('%' :: '*' :: seps) = some seps :=
        run_specifier '*' '*' seps
      have whole : (maybe separators).run (seps ++ []) = some [] :=
        run_separators (trailing seps rfl) (by simp)
      rw [List.append_nil] at whole
      rw [run_seq_of_some marked, whole]
    rw [endChars, run_maybe, last]
    rfl

theorem run_grammar : grammar.run cs = some [] ↔ ∃ s : Spelling, s.chars = cs := by
  refine ⟨fun run => exists_spelling_of_mem (mem_of_run run), ?_⟩
  rintro ⟨s, rfl⟩
  exact run_spelling s

end Format

/-! ### Conversion -/

variable {kinds : List Kind} {args : List String} {items : List Value} {kind : Kind} {arg : String}
  {v : Value} {position i : Nat}

section Map

variable {α β : Type} {result : Except Fault.Cause α} {g : α → β}

theorem map_eq_ok {b : β} : result.map g = .ok b ↔ ∃ a, result = .ok a ∧ g a = b := by
  cases result <;> simp [Except.map]

theorem map_eq_error {cause : Fault.Cause} :
    result.map g = .error cause ↔ result = .error cause := by
  cases result <;> simp [Except.map]

end Map

theorem convertFrom_eq_ok : convertFrom position kinds args = .ok items ↔
    List.zipWith convert kinds args = items.map some := by
  induction kinds generalizing args items position with
  | nil => cases items <;> simp [convertFrom]
  | cons kind kinds ih =>
    cases args with
    | nil => cases items <;> simp [convertFrom]
    | cons arg args =>
      rw [convertFrom, List.zipWith_cons_cons]
      cases converted : convert kind arg with
      | none => cases items <;> simp
      | some v =>
        simp only [map_eq_ok, ih]
        constructor
        · rintro ⟨behind, zipped, rfl⟩
          rw [zipped, List.map_cons]
        · intro zipped
          cases items with
          | nil => cases zipped
          | cons item items =>
            obtain ⟨here, behind⟩ := List.cons.inj zipped
            exact ⟨items, behind, by rw [Option.some.inj here]⟩

def FitsAt (kinds : List Kind) (args : List String) (i : Nat) : Prop :=
  ∀ kind ∈ kinds[i]?, ∀ arg ∈ args[i]?, (convert kind arg).isSome = true

/-- The first argument that cannot be read as its kind. -/
structure Misfit (kinds : List Kind) (args : List String) (i : Nat) (kind : Kind) (arg : String) :
    Prop where
  wanted : kinds[i]? = some kind
  given : args[i]? = some arg
  fails : convert kind arg = none
  first : ∀ j < i, FitsAt kinds args j

namespace Misfit

theorem here (fails : convert kind arg = none) :
    Misfit (kind :: kinds) (arg :: args) 0 kind arg :=
  ⟨rfl, rfl, fails, nofun⟩

theorem later {kind' : Kind} {arg' : String} (converted : convert kind' arg' = some v)
    (h : Misfit kinds args i kind arg) :
    Misfit (kind' :: kinds) (arg' :: args) (i + 1) kind arg where
  wanted := h.wanted
  given := h.given
  fails := h.fails
  first
    | 0, _, _, rfl, _, rfl => by rw [converted]; rfl
    | j + 1, below, k, wanted, a, given =>
      h.first j (Nat.lt_of_succ_lt_succ below) k wanted a given

/-- Behind an argument that can be read. -/
theorem behind {kind' : Kind} {arg' : String} (converted : convert kind' arg' = some v)
    (h : Misfit (kind' :: kinds) (arg' :: args) i kind arg) :
    ∃ j, i = j + 1 ∧ Misfit kinds args j kind arg := by
  cases i with
  | zero =>
    obtain rfl := Option.some.inj h.wanted
    obtain rfl := Option.some.inj h.given
    exact absurd h.fails (by simp [converted])
  | succ j =>
    exact ⟨j, rfl, h.wanted, h.given, h.fails, fun k below =>
      h.first (k + 1) (Nat.succ_lt_succ below)⟩

/-- At an argument that cannot be read. -/
theorem at_head {kind' : Kind} {arg' : String} (fails : convert kind' arg' = none)
    (h : Misfit (kind' :: kinds) (arg' :: args) i kind arg) :
    i = 0 ∧ kind = kind' ∧ arg = arg' := by
  cases i with
  | zero => exact ⟨rfl, (Option.some.inj h.wanted).symm, (Option.some.inj h.given).symm⟩
  | succ j =>
    have converts := h.first 0 (Nat.succ_pos j) kind' rfl arg' rfl
    rw [fails] at converts
    cases converts

end Misfit

theorem convertFrom_eq_error {cause : Fault.Cause} :
    convertFrom position kinds args = .error cause ↔ ∃ i kind arg,
      Misfit kinds args i kind arg ∧ cause = .argumentForm (position + i) kind arg := by
  induction kinds generalizing args position with
  | nil =>
    rw [convertFrom]
    · exact ⟨nofun, fun ⟨i, kind, arg, h, _⟩ => by cases h.wanted⟩
    · exact nofun
  | cons kind kinds ih =>
    cases args with
    | nil =>
      rw [convertFrom]
      · exact ⟨nofun, fun ⟨i, kind, arg, h, _⟩ => by cases h.given⟩
      · exact nofun
    | cons arg args =>
      rw [convertFrom]
      cases converted : convert kind arg with
      | none =>
        constructor
        · rintro ⟨⟩
          exact ⟨0, kind, arg, .here converted, rfl⟩
        · rintro ⟨i, kind', arg', h, rfl⟩
          obtain ⟨rfl, rfl, rfl⟩ := h.at_head converted
          rfl
      | some v =>
        simp only [map_eq_error, ih]
        constructor
        · rintro ⟨i, kind', arg', h, rfl⟩
          exact ⟨i + 1, kind', arg', h.later converted, by rw [Nat.succ_add_eq_add_succ]⟩
        · rintro ⟨i, kind', arg', h, rfl⟩
          obtain ⟨j, rfl, inner⟩ := h.behind converted
          exact ⟨j, kind', arg', inner, by rw [Nat.succ_add_eq_add_succ]⟩

namespace Format

variable {f : Format}

def Accepts (f : Format) (count : Nat) : Prop :=
  if f.takesRest then f.kinds.length ≤ count else count = f.kinds.length

def countFault (f : Format) (given : Nat) : Fault.Cause :=
  if f.takesRest then .tooFewArguments f.kinds.length given
  else .argumentCount f.kinds.length given

theorem extract_of_accepts (h : f.Accepts args.length) : f.extract args =
    (convertFrom 1 f.kinds args).map fun items => ⟨items, args.drop f.kinds.length⟩ := by
  unfold Accepts at h
  unfold extract
  split at h <;> rename_i rest
  · rw [if_neg (by omega), if_neg (by simp [rest])]
  · rw [if_neg (by simp [rest]), if_neg (by simp [h])]

theorem extract_of_not_accepts (h : ¬ f.Accepts args.length) :
    f.extract args = .error (f.countFault args.length) := by
  unfold Accepts at h
  unfold extract countFault
  split at h <;> rename_i rest
  · rw [if_pos ⟨rest, Nat.lt_of_not_le h⟩, if_pos rest]
  · rw [if_neg (by simp [rest]), if_pos ⟨rest, h⟩, if_neg rest]

/-- What arguments of the right number come to: each one that a kind is named for, converted to that
kind, and the further ones as they are. -/
structure Converts (f : Format) (args : List String) (values : Values) : Prop where
  count : values.items.length = f.kinds.length
  items : List.zipWith convert f.kinds args = values.items.map some
  rest : values.rest = args.drop f.kinds.length

theorem Accepts.length_le (h : f.Accepts args.length) : f.kinds.length ≤ args.length := by
  unfold Accepts at h
  split at h
  · exact h
  · exact h.ge

theorem extract_eq_ok {values : Values} :
    f.extract args = .ok values ↔ f.Accepts args.length ∧ f.Converts args values := by
  by_cases right : f.Accepts args.length
  · rw [extract_of_accepts right, map_eq_ok]
    constructor
    · rintro ⟨items, converted, rfl⟩
      have zipped := convertFrom_eq_ok.mp converted
      have count := congrArg List.length zipped
      rw [List.length_zipWith, List.length_map, Nat.min_eq_left right.length_le] at count
      exact ⟨right, count.symm, zipped, rfl⟩
    · rintro ⟨-, -, zipped, rest⟩
      exact ⟨values.items, convertFrom_eq_ok.mpr zipped, by rw [← rest]⟩
  · rw [extract_of_not_accepts right]
    exact ⟨nofun, fun h => absurd h.1 right⟩

theorem extract_eq_error (right : f.Accepts args.length) {cause : Fault.Cause} :
    f.extract args = .error cause ↔
      ∃ i kind arg, Misfit f.kinds args i kind arg ∧ cause = .argumentForm (i + 1) kind arg := by
  rw [extract_of_accepts right, map_eq_error, convertFrom_eq_error]
  simp only [Nat.add_comm 1]

theorem Converts.fitsAt {values : Values} (h : f.Converts args values) (i : Nat) :
    FitsAt f.kinds args i := by
  intro kind wanted arg given
  have zipped := congrArg (·[i]?) h.items
  rw [Option.mem_def] at wanted given
  simp only [List.getElem?_zipWith, wanted, given, List.getElem?_map] at zipped
  cases item : values.items[i]? with
  | none => simp [item] at zipped
  | some v =>
    simp only [item, Option.map_some, Option.some.injEq] at zipped
    rw [zipped]
    rfl

theorem exists_extract : (∃ values, f.extract args = .ok values) ↔ f.Accepts args.length ∧
    ∀ i, FitsAt f.kinds args i := by
  constructor
  · rintro ⟨values, extracted⟩
    obtain ⟨right, converts⟩ := extract_eq_ok.mp extracted
    exact ⟨right, converts.fitsAt⟩
  · rintro ⟨right, each⟩
    cases extracted : f.extract args with
    | ok values => exact ⟨values, rfl⟩
    | error cause =>
      obtain ⟨i, kind, arg, misfit, -⟩ := (extract_eq_error right).mp extracted
      have converts := each i kind misfit.wanted arg misfit.given
      rw [misfit.fails] at converts
      cases converts

/-- A format is read exactly when it is made of separators, specifiers and perhaps a `%*` at the
end, as the grammar has it, and what is read is its specifiers in order. It can be matched exactly
against arguments of the right number that can each be read as their kind, and gives them converted,
with those that remain. A wrong number is reported whatever the arguments are. If the number is
right the first argument that does not fit is reported. -/
theorem read_extract (format : String) (args : List String) :
    (∀ f, read format = .ok f ↔ ∃ s : Spelling, s.text = format ∧ s.format = f) ∧
    (∀ cause, read format = .error cause ↔
      cause = .argumentFormat format ∧ ¬ ∃ s : Spelling, s.text = format) ∧
    (grammar.run format.toList = some [] ↔ ∃ s : Spelling, s.text = format) ∧
    ∀ f : Format,
      ((∃ values, f.extract args = .ok values) ↔ f.Accepts args.length ∧
        ∀ i, FitsAt f.kinds args i) ∧
      (∀ values, f.extract args = .ok values ↔
        f.Accepts args.length ∧ f.Converts args values) ∧
      ∀ cause, f.extract args = .error cause ↔
        ¬ f.Accepts args.length ∧ cause = f.countFault args.length ∨
        f.Accepts args.length ∧ ∃ i kind arg, Misfit f.kinds args i kind arg ∧
          cause = .argumentForm (i + 1) kind arg := by
  refine ⟨fun f => read_eq_ok, fun cause => read_eq_error, ?_, fun f =>
    ⟨exists_extract, fun values => extract_eq_ok, fun cause => ?_⟩⟩
  · simp only [run_grammar, Spelling.text_eq]
  · by_cases right : f.Accepts args.length
    · simp [extract_eq_error right, right]
    · simp [extract_of_not_accepts right, right, eq_comm]

/-- The second argument is no integer. -/
example : (read "%s, %d %*").bind (·.extract ["width", "wide", "and", "more"]) =
    .error (.argumentForm 2 .integer "wide") := by
  rfl

/-- Behind `%*` there are no further specifiers. -/
example : read "%* %s" = .error (.argumentFormat "%* %s") := by
  rfl

end Format

end Scriptlet.Argument
