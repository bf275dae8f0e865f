import Scriptlet.Phase
import Scriptlet.Lexer.Piece

/-!
Reading tokens off a script, with the position that messages refer to.
-/

namespace Scriptlet

/-- Where the reader stands: the line, counted from 1, and the octets taken from it so far, the
last one first. -/
structure Position where
  line : Nat := 1
  taken : List UInt8 := []
  deriving DecidableEq, Repr

namespace Position

def advance (p : Position) (b : UInt8) : Position :=
  if b = 10 then ⟨p.line + 1, []⟩ else { p with taken := b :: p.taken }

def column (p : Position) : Nat := p.taken.length

def lineText (p : Position) : String := Utf8.decode p.taken.reverse

theorem line_advance (p : Position) (b : UInt8) :
    (p.advance b).line = if b = 10 then p.line + 1 else p.line := by
  unfold advance
  split <;> rfl

theorem column_advance (p : Position) (b : UInt8) :
    (p.advance b).column = if b = 10 then 0 else p.column + 1 := by
  unfold advance
  split <;> rfl

end Position

namespace Lexer

/-- The next token of a script, the position behind it and the octets that are left. Blank space
is passed over octet by octet, `skip` counting those of a blank piece that are still to come; a
newline is blank space unless `newlines` makes it a token. -/
def next (newlines : Bool) : Nat → Position → List UInt8 → Token × Position × List UInt8
  | _, p, [] => (.eof, p, [])
  | skip + 1, p, b :: bs => next newlines skip (p.advance b) bs
  | 0, p, b :: bs =>
    match piece b bs with
    | .blank width => next newlines width (p.advance b) bs
    | .newline =>
      if newlines then (⟨.newline, "\n"⟩, p.advance b, bs)
      else next newlines 0 (p.advance b) bs
    | .token t width => (t, (bs.take width).foldl Position.advance (p.advance b), bs.drop width)

end Lexer

/-- A script being read: the octets that are left, the position, and a token put back. Being a
value, a copy is a checkpoint that reading can resume from. -/
structure Input where
  rest : List UInt8 := []
  position : Position := {}
  putback : Option Token := none
  deriving DecidableEq, Repr

namespace Input

def ofScript (script : String) : Input := { rest := Utf8.encode script }

def close (i : Input) : Input := { i with rest := [], putback := none }

def line (i : Input) : Nat := i.position.line

/-- The next token as `phase` reads it. A token that was put back comes first, whatever the
phase. -/
def next (i : Input) (phase : Phase) : Token × Input :=
  match i.putback with
  | some t => (t, { i with putback := none })
  | none =>
    let (t, position, rest) := Lexer.next phase.readsNewlines 0 i.position i.rest
    (t, { i with rest, position })

/-- Put a token back. There is room for one; an earlier one is lost. -/
def unread (i : Input) (t : Token) : Input := { i with putback := some t }

/-- A token that was put back is read again in any phase, and the script stays where it was. -/
@[simp] theorem next_unread (i : Input) (t : Token) (phase : Phase) :
    (i.unread t).next phase = (t, { i with putback := none }) := rfl

@[simp] theorem line_unread (i : Input) (t : Token) : (i.unread t).line = i.line := rfl

@[simp] theorem line_close (i : Input) : i.close.line = i.line := rfl

end Input

end Scriptlet
