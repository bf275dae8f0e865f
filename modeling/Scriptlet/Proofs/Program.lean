import Scriptlet.Proofs.Semantics

/-!
Programs: the trees of statements and how they are written. An `else` belongs to the nearest `if`, so
a statement that ends in an `if` without `else` cannot stand in front of one; the type of a
statement tells whether it ends so. Every simple statement is written with its semicolon.
-/

namespace Scriptlet.Syntax

open Lexeme (Spaced opening)

abbrev Bump := { op : Operator // (op = .increment || op = .decrement) = true }

inductive Simple where
  | assign (name : Name) (value : Cond)
  | bump (name : Name) (op : Bump)
  | expr (value : Cond)

structure Declaration where
  name : Name
  value : Option Cond

inductive Init where
  | none
  | simple (x : Simple)
  | declare (first : Declaration) (rest : List Declaration)

mutual

/-- A statement; the index tells whether an `else` behind it would belong to it. -/
inductive Stmt : Bool → Type where
  | empty : Stmt false
  | block (body : Stmts) : Stmt false
  | branch {b : Bool} (c : Cond) (t : Stmt b) : Stmt true
  | branchElse {b : Bool} (c : Cond) (t : Stmt false) (e : Stmt b) : Stmt b
  | loop {b : Bool} (init : Init) (c : Option Cond) (step : Option Simple) (body : Stmt b) : Stmt b
  | declare (first : Declaration) (rest : List Declaration) : Stmt false
  | simple (x : Simple) : Stmt false
  | ret (value : Option Cond) : Stmt false

inductive Stmts where
  | nil
  | cons {b : Bool} (first : Stmt b) (rest : Stmts)

end

/-! ### Lexemes -/

def Bump.lexeme (op : Bump) : Lexeme := .symbol (.bump op.1) op.2

def Simple.lexemes : Simple → List Lexeme
  | .assign name value => .name name :: sym .assign :: value.lexemes
  | .bump name op => [.name name, Bump.lexeme op]
  | .expr value => value.lexemes

def Declaration.binding (d : Declaration) : List Lexeme :=
  match d.value with
  | none => []
  | some value => sym .assign :: value.lexemes

def Declaration.lexemes (d : Declaration) : List Lexeme := .name d.name :: d.binding

def others (ds : List Declaration) : List Lexeme := ds.flatMap fun d => sym .comma :: d.lexemes

def Init.lexemes : Init → List Lexeme
  | .none => []
  | .simple x => x.lexemes
  | .declare first rest => sym .varWord :: (first.lexemes ++ others rest)

def optional (c : Option Cond) : List Lexeme := (c.map Cond.lexemes).getD []

mutual

def Stmt.lexemes {b : Bool} : Stmt b → List Lexeme
  | .empty => [sym .semicolon]
  | .block body => sym .lbrace :: (body.lexemes ++ [sym .rbrace])
  | .branch c t => sym .ifWord :: sym .lparen :: (c.lexemes ++ sym .rparen :: t.lexemes)
  | .branchElse c t e =>
    sym .ifWord :: sym .lparen ::
      (c.lexemes ++ sym .rparen :: (t.lexemes ++ sym .elseWord :: e.lexemes))
  | .loop init c step body =>
    sym .forWord :: sym .lparen :: (init.lexemes ++ sym .semicolon ::
      (optional c ++ sym .semicolon ::
        ((step.map Simple.lexemes).getD [] ++ sym .rparen :: body.lexemes)))
  | .declare first rest => sym .varWord :: (first.lexemes ++ (others rest ++ [sym .semicolon]))
  | .simple x => x.lexemes ++ [sym .semicolon]
  | .ret value => sym .returnWord :: (optional value ++ [sym .semicolon])

def Stmts.lexemes : Stmts → List Lexeme
  | .nil => []
  | .cons first rest => first.lexemes ++ rest.lexemes

end

/-! ### Depth -/

def Simple.depth : Simple → Nat
  | .assign _ value => 1 + value.depth
  | .bump _ _ => 1
  | .expr value => 1 + value.depth

theorem Simple.depth_pos (x : Simple) : 0 < x.depth := by
  cases x <;> simp only [Simple.depth] <;> omega

def optionalDepth (c : Option Cond) : Nat := (c.map Cond.depth).getD 0

def Declaration.depth (d : Declaration) : Nat := 1 + optionalDepth d.value

def declarationsDepth : List Declaration → Nat
  | [] => 0
  | d :: ds => max d.depth (declarationsDepth ds)

def headerDepth (c : Option Cond) (step : Option Simple) : Nat :=
  max (optionalDepth c) ((step.map Simple.depth).getD 0)

def Init.depth : Init → Nat
  | .none => 0
  | .simple x => x.depth
  | .declare first rest => 1 + declarationsDepth (first :: rest)

mutual

/-- How many constructs are open at a time while a statement is read. -/
def Stmt.depth {b : Bool} : Stmt b → Nat
  | .empty => 1
  | .block body => 2 + max 1 body.depth
  | .branch c t => 2 + max c.depth t.depth
  | .branchElse c t e => 2 + max c.depth (max t.depth e.depth)
  | .loop init c step body => 2 + max init.depth (max (headerDepth c step) body.depth)
  | .declare first rest => 2 + declarationsDepth (first :: rest)
  | .simple x => 1 + x.depth
  | .ret value => 2 + optionalDepth value

def Stmts.depth : Stmts → Nat
  | .nil => 0
  | .cons first rest => max first.depth rest.depth

end

/-! ### Neighbours -/

section Spaced

variable {after : Bool} {rest : List Lexeme}

theorem spaced_semicolon (h : Spaced after rest) : Spaced after (sym .semicolon :: rest) :=
  ⟨trivial, h⟩

theorem Simple.spaced (x : Simple) (h : Spaced after rest) (closed : opening after rest = false) :
    Spaced after (x.lexemes ++ rest) := by
  cases x with
  | assign name value => exact ⟨rfl, trivial, value.spaced h closed⟩
  | bump name op => exact ⟨rfl, trivial, h⟩
  | expr value => exact value.spaced h closed

theorem Declaration.spaced (d : Declaration) (h : Spaced after rest)
    (closed : opening after rest = false) : Spaced after (d.lexemes ++ rest) := by
  obtain ⟨name, value⟩ := d
  cases value with
  | none => exact ⟨closed, h⟩
  | some value => exact ⟨rfl, trivial, value.spaced h closed⟩

theorem spaced_others (ds : List Declaration) (h : Spaced after rest)
    (closed : opening after rest = false) :
    Spaced after (others ds ++ rest) ∧ opening after (others ds ++ rest) = false := by
  induction ds with
  | nil => exact ⟨h, closed⟩
  | cons d ds ih =>
    have first := d.spaced ih.1 ih.2
    refine ⟨?_, rfl⟩
    simp only [others, List.flatMap_cons, List.cons_append, List.append_assoc] at first ⊢
    exact ⟨trivial, first⟩

theorem declarations_spaced (first : Declaration) (ds : List Declaration) (h : Spaced after rest)
    (closed : opening after rest = false) :
    Spaced after (first.lexemes ++ (others ds ++ rest)) := by
  obtain ⟨later, comma⟩ := spaced_others ds h closed
  exact first.spaced later comma

theorem spaced_optional (c : Option Cond) (h : Spaced after rest)
    (closed : opening after rest = false) : Spaced after (optional c ++ rest) := by
  cases c with
  | none => exact h
  | some c => exact c.spaced h closed

theorem Init.spaced (init : Init) (h : Spaced after rest) (closed : opening after rest = false) :
    Spaced after (init.lexemes ++ rest) := by
  cases init with
  | none => exact h
  | simple x => exact x.spaced h closed
  | declare first ds =>
    refine ⟨trivial, ?_⟩
    have whole := declarations_spaced first ds h closed
    simpa using whole

end Spaced

mutual

theorem Stmt.spaced {after : Bool} {rest : List Lexeme} {b : Bool} (h : Spaced after rest) :
    (st : Stmt b) → Spaced after (st.lexemes ++ rest)
  | .empty => ⟨trivial, h⟩
  | .block body => by
    have close : Spaced after (sym .rbrace :: rest) := ⟨trivial, h⟩
    have inside := body.spaced close
    exact ⟨trivial, by simpa using inside⟩
  | .branch c t => by
    have close : Spaced after (sym .rparen :: (t.lexemes ++ rest)) := ⟨trivial, t.spaced h⟩
    have test := c.spaced close rfl
    exact ⟨trivial, trivial, by simpa using test⟩
  | .branchElse c t e => by
    have later : Spaced after (sym .elseWord :: (e.lexemes ++ rest)) := ⟨trivial, e.spaced h⟩
    have close : Spaced after (sym .rparen :: (t.lexemes ++ sym .elseWord :: (e.lexemes ++ rest))) :=
      ⟨trivial, t.spaced later⟩
    have test := c.spaced close rfl
    exact ⟨trivial, trivial, by simpa using test⟩
  | .loop init c step body => by
    have close : Spaced after (sym .rparen :: (body.lexemes ++ rest)) := ⟨trivial, body.spaced h⟩
    have increment : Spaced after ((step.map Simple.lexemes).getD [] ++
        sym .rparen :: (body.lexemes ++ rest)) := by
      cases step with
      | none => exact close
      | some x => exact x.spaced close rfl
    have test := spaced_optional c (spaced_semicolon increment) rfl
    have header := init.spaced (spaced_semicolon test) rfl
    exact ⟨trivial, trivial, by simpa [Stmt.lexemes] using header⟩
  | .declare first ds => by
    have whole := declarations_spaced first ds (spaced_semicolon h) rfl
    exact ⟨trivial, by simpa using whole⟩
  | .simple x => by
    have whole := x.spaced (spaced_semicolon h) rfl
    simpa [Stmt.lexemes] using whole
  | .ret value => by
    have whole := spaced_optional value (spaced_semicolon h) rfl
    exact ⟨trivial, by simpa using whole⟩

theorem Stmts.spaced {after : Bool} {rest : List Lexeme} (h : Spaced after rest) :
    (body : Stmts) → Spaced after (body.lexemes ++ rest)
  | .nil => h
  | .cons first others => by
    have whole := first.spaced (others.spaced h)
    simpa [Stmts.lexemes] using whole

end

end Scriptlet.Syntax
