import Scriptlet.Machine.Frame
import Scriptlet.Proofs.Lexeme

/-!
Syntax trees and how they are written. Expressions have three tiers, and within a tier operators
chain from left to right, so a chain is nested on its left. A tree is written as lexemes with a
blank between neighbours.
-/

namespace Scriptlet.Syntax

abbrev Connective := { op : Logical // op ≠ .not }

abbrev Comparison := { op : Operator // op.isRelational = true }

abbrev Arithmetic := { op : Operator // op.isArithmetic = true }

mutual

inductive Cond where
  | operand (r : Rel)
  | join (left : Cond) (op : Connective) (right : Rel)

inductive Rel where
  | operand (a : Arith)
  | compare (left : Rel) (op : Comparison) (right : Arith)

inductive Arith where
  | operand (t : Term)
  | apply (left : Arith) (op : Arithmetic) (right : Term)

inductive Term where
  | unary (op : Unary) (t : Term)
  | literal (l : Literal)
  | variable (n : Name)
  | call (name : Name) (args : Args)
  | paren (c : Cond)

inductive Args where
  | nil
  | cons (first : Cond) (rest : Args)

end

/-! ### Lexemes -/

open Lexeme (Spaced opening)

def sym (kind : Token.Kind) (fixed : kind.isSymbol = true := by exact Eq.refl true) : Lexeme :=
  .symbol kind fixed

def Connective.lexeme (op : Connective) : Lexeme := .symbol (.logical op.1) rfl

def Comparison.lexeme (op : Comparison) : Lexeme :=
  .symbol (.operator op.1) (by simp [Token.Kind.isSymbol, op.2])

def Arithmetic.lexeme (op : Arithmetic) : Lexeme :=
  .symbol (.operator op.1) (by simp [Token.Kind.isSymbol, op.2])

def unaryLexeme : Unary → Lexeme
  | .minus => sym (.operator .minus)
  | .not => sym (.logical .not)

mutual

def Cond.lexemes : Cond → List Lexeme
  | .operand r => r.lexemes
  | .join left op right => left.lexemes ++ Connective.lexeme op :: right.lexemes

def Rel.lexemes : Rel → List Lexeme
  | .operand a => a.lexemes
  | .compare left op right => left.lexemes ++ Comparison.lexeme op :: right.lexemes

def Arith.lexemes : Arith → List Lexeme
  | .operand t => t.lexemes
  | .apply left op right => left.lexemes ++ Arithmetic.lexeme op :: right.lexemes

def Term.lexemes : Term → List Lexeme
  | .unary op t => unaryLexeme op :: t.lexemes
  | .literal l => [.literal l]
  | .variable n => [.name n]
  | .call name args => .function name :: sym .lparen :: (args.lexemes ++ [sym .rparen])
  | .paren c => sym .lparen :: (c.lexemes ++ [sym .rparen])

def Args.lexemes : Args → List Lexeme
  | .nil => []
  | .cons first rest => first.lexemes ++ rest.others

def Args.others : Args → List Lexeme
  | .nil => []
  | .cons first rest => sym .comma :: (first.lexemes ++ rest.others)

end

/-! ### Depth -/

mutual

/-- How many constructs are open at a time while an expression is read, beside those of its own
three tiers. -/
def Cond.extra : Cond → Nat
  | .operand r => r.extra
  | .join left _ right => max left.extra right.extra

def Rel.extra : Rel → Nat
  | .operand a => a.extra
  | .compare left _ right => max left.extra right.extra

def Arith.extra : Arith → Nat
  | .operand t => t.extra
  | .apply left _ right => max left.extra right.extra

def Term.extra : Term → Nat
  | .unary _ t => t.extra
  | .literal _ => 0
  | .variable _ => 0
  | .call _ args => 2 + args.extra
  | .paren c => 3 + c.extra

def Args.extra : Args → Nat
  | .nil => 0
  | .cons first rest => max (3 + first.extra) rest.extra

end

def Cond.depth (c : Cond) : Nat := 3 + c.extra

theorem Cond.depth_pos (c : Cond) : 0 < c.depth := by
  unfold Cond.depth
  omega

/-! ### Neighbours -/

mutual

theorem Cond.spaced {after : Bool} {rest : List Lexeme} (h : Spaced after rest)
    (closed : opening after rest = false) : (c : Cond) → Spaced after (c.lexemes ++ rest)
  | .operand r => r.spaced h closed
  | .join left op right => by
    have later : Spaced after (Connective.lexeme op :: (right.lexemes ++ rest)) :=
      ⟨trivial, right.spaced h closed⟩
    have whole := left.spaced later rfl
    simpa [Cond.lexemes] using whole

theorem Rel.spaced {after : Bool} {rest : List Lexeme} (h : Spaced after rest)
    (closed : opening after rest = false) : (r : Rel) → Spaced after (r.lexemes ++ rest)
  | .operand a => a.spaced h closed
  | .compare left op right => by
    have later : Spaced after (Comparison.lexeme op :: (right.lexemes ++ rest)) :=
      ⟨trivial, right.spaced h closed⟩
    have whole := left.spaced later rfl
    simpa [Rel.lexemes] using whole

theorem Arith.spaced {after : Bool} {rest : List Lexeme} (h : Spaced after rest)
    (closed : opening after rest = false) : (a : Arith) → Spaced after (a.lexemes ++ rest)
  | .operand t => t.spaced h closed
  | .apply left op right => by
    have later : Spaced after (Arithmetic.lexeme op :: (right.lexemes ++ rest)) :=
      ⟨trivial, right.spaced h closed⟩
    have whole := left.spaced later rfl
    simpa [Arith.lexemes] using whole

theorem Term.spaced {after : Bool} {rest : List Lexeme} (h : Spaced after rest)
    (closed : opening after rest = false) : (t : Term) → Spaced after (t.lexemes ++ rest)
  | .unary op t => ⟨by cases op <;> trivial, t.spaced h closed⟩
  | .literal l => ⟨trivial, h⟩
  | .variable n => ⟨closed, h⟩
  | .call name args => by
    have later : Spaced after (sym .rparen :: rest) := ⟨trivial, h⟩
    have whole := args.spaced later rfl
    exact ⟨rfl, trivial, by simpa using whole⟩
  | .paren c => by
    have later : Spaced after (sym .rparen :: rest) := ⟨trivial, h⟩
    have whole := c.spaced later rfl
    exact ⟨trivial, by simpa using whole⟩

theorem Args.spaced {after : Bool} {rest : List Lexeme} (h : Spaced after rest)
    (closed : opening after rest = false) : (args : Args) → Spaced after (args.lexemes ++ rest)
  | .nil => h
  | .cons first others => by
    obtain ⟨later, comma⟩ := others.spaced_others h closed
    have whole := first.spaced later comma
    simpa [Args.lexemes] using whole

theorem Args.spaced_others {after : Bool} {rest : List Lexeme} (h : Spaced after rest)
    (closed : opening after rest = false) : (args : Args) →
    Spaced after (args.others ++ rest) ∧ opening after (args.others ++ rest) = false
  | .nil => ⟨h, closed⟩
  | .cons first others => by
    obtain ⟨later, comma⟩ := others.spaced_others h closed
    have whole := first.spaced later comma
    exact ⟨⟨trivial, by simpa using whole⟩, rfl⟩

end

theorem Cond.spaced_alone (c : Cond) : Spaced false c.lexemes := by
  have empty : Spaced false [] := trivial
  have whole := c.spaced empty rfl
  rwa [List.append_nil] at whole

end Scriptlet.Syntax
