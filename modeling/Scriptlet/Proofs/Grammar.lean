import Mathlib.Computability.Language

/-!
Grammars of short texts, read in two ways. As a plain language a grammar holds every text that can
be divided as the grammar says. As a recognizer it never goes back: of two alternatives it takes
the first that fits, and a repetition takes all that it can. What a recognizer takes is always in
the language; whether it takes all of a text that is in the language depends on the grammar.
-/

namespace Scriptlet

open scoped Computability

inductive Grammar where
  | empty
  | one (f : Char → Bool)
  | seq (first second : Grammar)
  | alt (first second : Grammar)
  | star (g : Grammar)

namespace Grammar

def char (c : Char) : Grammar := one (· = c)

def maybe (g : Grammar) : Grammar := alt g empty

def many (f : Char → Bool) : Grammar := seq (one f) (star (one f))

/-! ### The plain language -/

/-- The texts that can be divided as the grammar says. -/
def language : Grammar → Language Char
  | empty => 1
  | one f => {text | ∃ c, f c = true ∧ text = [c]}
  | seq a b => a.language * b.language
  | alt a b => a.language + b.language
  | star g => g.language∗

variable {f : Char → Bool} {a b g : Grammar} {text : List Char}

theorem mem_empty : text ∈ empty.language ↔ text = [] := Language.mem_one text

theorem mem_one : text ∈ (one f).language ↔ ∃ c, f c = true ∧ text = [c] := Iff.rfl

theorem mem_seq : text ∈ (seq a b).language ↔
    ∃ first ∈ a.language, ∃ second ∈ b.language, first ++ second = text :=
  Language.mem_mul

theorem mem_alt : text ∈ (alt a b).language ↔ text ∈ a.language ∨ text ∈ b.language :=
  Language.mem_add _ _ _

theorem mem_char {c : Char} : text ∈ (char c).language ↔ text = [c] := by
  simp [char, mem_one]

theorem mem_maybe : text ∈ (maybe g).language ↔ text ∈ g.language ∨ text = [] := by
  rw [maybe, mem_alt, mem_empty]

theorem mem_star_one : text ∈ (star (one f)).language ↔ text.all f = true := by
  constructor
  · intro h
    obtain ⟨pieces, rfl, each⟩ := Language.mem_kstar.mp h
    rw [List.all_eq_true]
    intro c inside
    obtain ⟨piece, listed, here⟩ := List.mem_flatten.mp inside
    obtain ⟨d, holds, rfl⟩ := mem_one.mp (each piece listed)
    rwa [List.mem_singleton.mp here]
  · intro h
    have each : ∀ c ∈ text, f c = true := List.all_eq_true.mp h
    refine Language.mem_kstar.mpr ⟨text.map fun c => [c], ?_, ?_⟩
    · rw [← List.flatMap_def, List.flatMap_singleton' text]
    · intro piece listed
      obtain ⟨c, inside, rfl⟩ := List.mem_map.mp listed
      exact mem_one.mpr ⟨c, each c inside, rfl⟩

theorem mem_many : text ∈ (many f).language ↔ text ≠ [] ∧ text.all f = true := by
  rw [many, mem_seq]
  constructor
  · rintro ⟨_, ⟨c, holds, rfl⟩, rest, all, rfl⟩
    rw [mem_star_one] at all
    exact ⟨nofun, by simp [holds, all]⟩
  · rintro ⟨some, all⟩
    cases text with
    | nil => exact absurd rfl some
    | cons c text =>
      rw [List.all_cons, Bool.and_eq_true] at all
      exact ⟨[c], ⟨c, all.1, rfl⟩, text, mem_star_one.mpr all.2, rfl⟩

theorem mem_maybe_many : text ∈ (maybe (many f)).language ↔ text.all f = true := by
  rw [mem_maybe, mem_many]
  cases text with
  | nil => simp
  | cons c text => simp

def uses (c : Char) : Grammar → Bool
  | empty => false
  | one f => f c
  | seq a b => a.uses c || b.uses c
  | alt a b => a.uses c || b.uses c
  | star g => g.uses c

/-- A text of the grammar is made of no other characters. -/
theorem uses_of_mem {c : Char} (h : text ∈ g.language) (inside : c ∈ text) : g.uses c = true := by
  induction g generalizing text with
  | empty =>
    obtain rfl := mem_empty.mp h
    cases inside
  | one f =>
    obtain ⟨d, holds, rfl⟩ := mem_one.mp h
    rwa [List.mem_singleton.mp inside]
  | seq a b first second =>
    obtain ⟨x, xIn, y, yIn, rfl⟩ := mem_seq.mp h
    rw [uses, Bool.or_eq_true]
    exact (List.mem_append.mp inside).imp (first xIn) (second yIn)
  | alt a b first second =>
    rw [uses, Bool.or_eq_true]
    exact (mem_alt.mp h).imp (first · inside) (second · inside)
  | star g turn =>
    obtain ⟨pieces, rfl, each⟩ := Language.mem_kstar.mp h
    obtain ⟨piece, listed, here⟩ := List.mem_flatten.mp inside
    exact turn (each piece listed) here

/-! ### The recognizer -/

def greedy (take : List Char → Option (List Char)) : Nat → List Char → List Char
  | 0, cs => cs
  | limit + 1, cs =>
    match take cs with
    | some rest => greedy take limit rest
    | none => cs

/-- What is left of a text when the recognizer has taken its part from the front. A repetition has
no more turns than there are characters, of which each turn takes one at least. -/
def run : Grammar → List Char → Option (List Char)
  | empty, cs => some cs
  | one _, [] => none
  | one f, c :: cs => if f c then some cs else none
  | seq a b, cs => (a.run cs).bind b.run
  | alt a b, cs => (a.run cs).or (b.run cs)
  | star g, cs => some (greedy g.run cs.length cs)

variable {cs rest : List Char}

attribute [local simp] run

theorem greedy_sound (sound : ∀ {cs rest}, g.run cs = some rest →
      ∃ taken ∈ g.language, taken ++ rest = cs) (limit : Nat) (cs : List Char) :
    ∃ taken ∈ (star g).language, taken ++ greedy g.run limit cs = cs := by
  induction limit generalizing cs with
  | zero => exact ⟨[], Language.nil_mem_kstar _, rfl⟩
  | succ limit ih =>
    rw [greedy]
    split
    · rename_i rest took
      obtain ⟨first, firstIn, rfl⟩ := sound took
      obtain ⟨others, othersIn, left⟩ := ih rest
      refine ⟨first ++ others, ?_, by rw [List.append_assoc, left]⟩
      rw [language, ← Language.one_add_self_mul_kstar_eq_kstar]
      exact .inr (Language.append_mem_mul firstIn othersIn)
    · exact ⟨[], Language.nil_mem_kstar _, rfl⟩

/-- What the recognizer takes is in the language. -/
theorem run_sound (h : g.run cs = some rest) : ∃ taken ∈ g.language, taken ++ rest = cs := by
  induction g generalizing cs rest with
  | empty =>
    obtain rfl := Option.some.inj h
    exact ⟨[], rfl, rfl⟩
  | one f =>
    cases cs with
    | nil => cases h
    | cons c cs =>
      rw [run] at h
      split at h
      · rename_i holds
        obtain rfl := Option.some.inj h
        exact ⟨[c], ⟨c, holds, rfl⟩, rfl⟩
      · cases h
  | seq a b first second =>
    obtain ⟨mid, took, others⟩ := Option.bind_eq_some_iff.mp h
    obtain ⟨x, xIn, rfl⟩ := first took
    obtain ⟨y, yIn, rfl⟩ := second others
    exact ⟨x ++ y, Language.append_mem_mul xIn yIn, List.append_assoc ..⟩
  | alt a b first second =>
    rcases Option.or_eq_some_iff.mp h with took | ⟨-, took⟩
    · obtain ⟨taken, inside, parts⟩ := first took
      exact ⟨taken, .inl inside, parts⟩
    · obtain ⟨taken, inside, parts⟩ := second took
      exact ⟨taken, .inr inside, parts⟩
  | star g sound =>
    obtain rfl := Option.some.inj h
    exact greedy_sound sound _ _

/-- A text that the recognizer takes as a whole is in the language. -/
theorem mem_of_run (h : g.run cs = some []) : cs ∈ g.language := by
  obtain ⟨taken, inside, rfl⟩ := run_sound h
  rwa [List.append_nil]

theorem run_seq_of_some (h : a.run cs = some rest) : (seq a b).run cs = b.run rest := by
  simp [h]

theorem run_seq_of_none (h : a.run cs = none) : (seq a b).run cs = none := by
  simp [h]

theorem run_alt_of_some (h : a.run cs = some rest) : (alt a b).run cs = some rest := by
  simp [h]

theorem run_alt_of_none (h : a.run cs = none) : (alt a b).run cs = b.run cs := by
  simp [h]

theorem run_maybe : (maybe g).run cs = some ((g.run cs).getD cs) := by
  cases h : g.run cs <;> simp [maybe, h]

theorem run_char_cons (c d : Char) : (char c).run (d :: cs) = if d = c then some cs else none := by
  simp [char]

theorem run_char_self (c : Char) (cs : List Char) : (char c).run (c :: cs) = some cs := by
  rw [run_char_cons, if_pos rfl]

theorem run_star_one : (star (one f)).run cs = some (cs.dropWhile f) := by
  have all : ∀ limit, cs.length ≤ limit → greedy (one f).run limit cs = cs.dropWhile f := by
    intro limit enough
    induction limit generalizing cs with
    | zero =>
      obtain rfl := List.eq_nil_of_length_eq_zero (Nat.le_zero.mp enough)
      rfl
    | succ limit ih =>
      cases cs with
      | nil => rfl
      | cons c cs =>
        by_cases holds : f c = true
        · rw [List.dropWhile_cons_of_pos holds, ← ih (Nat.le_of_succ_le_succ enough)]
          simp [greedy, holds]
        · rw [List.dropWhile_cons_of_neg holds]
          simp [greedy, holds]
  rw [run, all _ le_rfl]

/-- A run of a class is taken where something else follows. -/
theorem dropWhile_run {taken : List Char} (all : taken.all f = true)
    (stop : ∀ c ∈ rest.head?, f c = false) : (taken ++ rest).dropWhile f = rest := by
  rw [List.dropWhile_append_of_pos (by simpa using all)]
  cases rest with
  | nil => rfl
  | cons c rest => rw [List.dropWhile_cons_of_neg (by simp [stop c rfl])]

theorem run_many_run {taken : List Char} (nonempty : taken ≠ []) (all : taken.all f = true)
    (stop : ∀ c ∈ rest.head?, f c = false) : (many f).run (taken ++ rest) = some rest := by
  cases taken with
  | nil => exact absurd rfl nonempty
  | cons c taken =>
    rw [List.all_cons, Bool.and_eq_true] at all
    have first : (one f).run (c :: (taken ++ rest)) = some (taken ++ rest) := by
      simp [all.1]
    rw [List.cons_append, many, run_seq_of_some first, run_star_one, dropWhile_run all.2 stop]

theorem run_many_all (nonempty : cs ≠ []) (all : cs.all f = true) : (many f).run cs = some [] := by
  have whole : (many f).run (cs ++ []) = some [] := run_many_run nonempty all nofun
  rwa [List.append_nil] at whole

theorem run_many_none (stop : ∀ c ∈ cs.head?, f c = false) : (many f).run cs = none := by
  refine run_seq_of_none ?_
  cases cs with
  | nil => rfl
  | cons c cs => simp [stop c rfl]

theorem run_maybe_many : (maybe (many f)).run cs = some (cs.dropWhile f) := by
  rw [run_maybe]
  cases cs with
  | nil => rfl
  | cons c cs =>
    by_cases holds : f c = true
    · have first : (one f).run (c :: cs) = some cs := by simp [holds]
      rw [many, run_seq_of_some first, run_star_one, List.dropWhile_cons_of_pos holds]
      rfl
    · rw [run_many_none (by simp [holds]), List.dropWhile_cons_of_neg holds]
      rfl

end Grammar

end Scriptlet
