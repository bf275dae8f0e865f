/-!
Runs of digits and the numbers they write. Where only small numbers matter, a run can be read up
to a limit: the digits behind the limit no longer count, so a run of any length is read in time
proportional to its length.
-/

namespace Scriptlet.Digits

def isHexDigit (c : Char) : Bool :=
  c.isDigit || ('a' ≤ c && c ≤ 'f') || ('A' ≤ c && c ≤ 'F')

def digitValue (c : Char) : Nat :=
  if c.isDigit then c.toNat - '0'.toNat
  else if 'a' ≤ c && c ≤ 'f' then c.toNat - 'a'.toNat + 10
  else c.toNat - 'A'.toNat + 10

def push (base n : Nat) (c : Char) : Nat := n * base + digitValue c

def toNat (base : Nat) (digits : List Char) : Nat := digits.foldl (push base) 0

def pushUpTo (limit base n : Nat) (c : Char) : Nat := if n < limit then push base n c else n

def toNatUpTo (limit base : Nat) (digits : List Char) : Nat := digits.foldl (pushUpTo limit base) 0

theorem le_push {base : Nat} (h : 0 < base) (n : Nat) (c : Char) : n ≤ push base n c :=
  Nat.le_trans (Nat.le_mul_of_pos_right n h) (Nat.le_add_right _ _)

theorem le_foldl_push {base : Nat} (h : 0 < base) (digits : List Char) (n : Nat) :
    n ≤ digits.foldl (push base) n := by
  induction digits generalizing n with
  | nil => exact Nat.le_refl n
  | cons c rest ih => exact Nat.le_trans (le_push h n c) (ih (push base n c))

theorem foldl_pushUpTo_of_lt {limit base : Nat} (hb : 0 < base) (digits : List Char) (n : Nat)
    (h : digits.foldl (push base) n < limit) :
    digits.foldl (pushUpTo limit base) n = digits.foldl (push base) n := by
  induction digits generalizing n with
  | nil => rfl
  | cons c rest ih =>
    have below : n < limit := Nat.lt_of_le_of_lt (le_foldl_push hb (c :: rest) n) h
    have step : pushUpTo limit base n c = push base n c := if_pos below
    rw [List.foldl_cons, List.foldl_cons, step]
    exact ih (push base n c) h

theorem foldl_pushUpTo_of_le {limit : Nat} (base : Nat) (digits : List Char) (n : Nat)
    (h : limit ≤ n) : digits.foldl (pushUpTo limit base) n = n := by
  induction digits with
  | nil => rfl
  | cons c rest ih =>
    have step : pushUpTo limit base n c = n := if_neg (Nat.not_lt.mpr h)
    rw [List.foldl_cons, step, ih]

theorem le_foldl_pushUpTo {limit base : Nat} (digits : List Char) (n : Nat)
    (h : limit ≤ digits.foldl (push base) n) :
    limit ≤ digits.foldl (pushUpTo limit base) n := by
  induction digits generalizing n with
  | nil => exact h
  | cons c rest ih =>
    rw [List.foldl_cons]
    by_cases below : n < limit
    · have step : pushUpTo limit base n c = push base n c := if_pos below
      rw [step]
      exact ih (push base n c) h
    · have step : pushUpTo limit base n c = n := if_neg below
      rw [step, foldl_pushUpTo_of_le base rest n (Nat.not_lt.mp below)]
      exact Nat.not_lt.mp below

/-- Below the limit nothing is lost. -/
theorem toNatUpTo_of_lt {limit base : Nat} {digits : List Char} (hb : 0 < base)
    (h : toNat base digits < limit) : toNatUpTo limit base digits = toNat base digits :=
  foldl_pushUpTo_of_lt hb digits 0 h

/-- Whether a number lies below the limit can be told from what was read up to it. -/
theorem toNatUpTo_lt_iff {limit base : Nat} {digits : List Char} (hb : 0 < base) :
    toNatUpTo limit base digits < limit ↔ toNat base digits < limit := by
  constructor
  · intro h
    exact Nat.lt_of_not_le fun hle => Nat.not_le.mpr h (le_foldl_pushUpTo digits 0 hle)
  · intro h
    rw [toNatUpTo_of_lt hb h]
    exact h

end Scriptlet.Digits
