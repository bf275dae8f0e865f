/-!
UTF-8 text as octets. Scripts are read octet by octet, so a text enters as its encoding and a
token leaves as the text its octets decode to. Decoding never fails: each longest piece that can
begin a character but does not complete one becomes a single replacement character.
-/

namespace Scriptlet.Utf8

def encode (s : String) : List UInt8 :=
  s.toList.flatMap String.utf8EncodeChar

/-- A character whose first octets have been read: how many octets are still owed, the range the
next one has to lie in, and the bits gathered so far. -/
structure Pending where
  owed : Nat
  low : UInt8
  high : UInt8
  bits : Nat
  deriving DecidableEq, Repr

inductive Lead where
  | char (c : Char)
  | begins (p : Pending)
  | stray
  deriving DecidableEq, Repr

/-- Overlong forms, surrogates and values past the last code point are ruled out by the range of
the second octet. -/
def lead (b : UInt8) : Lead :=
  if b < 0x80 then .char (Char.ofUInt8 b)
  else if b < 0xc2 then .stray
  else if b < 0xe0 then .begins ⟨1, 0x80, 0xbf, (b &&& 0x1f).toNat⟩
  else if b = 0xe0 then .begins ⟨2, 0xa0, 0xbf, 0⟩
  else if b = 0xed then .begins ⟨2, 0x80, 0x9f, 0xd⟩
  else if b < 0xf0 then .begins ⟨2, 0x80, 0xbf, (b &&& 0x0f).toNat⟩
  else if b = 0xf0 then .begins ⟨3, 0x90, 0xbf, 0⟩
  else if b < 0xf4 then .begins ⟨3, 0x80, 0xbf, (b &&& 0x07).toNat⟩
  else if b = 0xf4 then .begins ⟨3, 0x80, 0x8f, 4⟩
  else .stray

def replacement : Char := '\uFFFD'

def start (b : UInt8) : List Char × Option Pending :=
  match lead b with
  | .char c => ([c], none)
  | .begins p => ([], some p)
  | .stray => ([replacement], none)

/-- Read one octet. An octet that cannot continue a pending character ends it as a replacement
and is then read between characters. -/
def step : Option Pending → UInt8 → List Char × Option Pending
  | none, b => start b
  | some p, b =>
    if p.low ≤ b ∧ b ≤ p.high then
      let bits := p.bits * 64 + (b &&& 0x3f).toNat
      if p.owed ≤ 1 then ([Char.ofNat bits], none)
      else ([], some ⟨p.owed - 1, 0x80, 0xbf, bits⟩)
    else
      let (out, next) := start b
      (replacement :: out, next)

def decodeFrom : Option Pending → List UInt8 → List Char
  | none, [] => []
  | some _, [] => [replacement]
  | p, b :: bs =>
    let (out, next) := step p b
    out ++ decodeFrom next bs

def decode (bytes : List UInt8) : String :=
  String.ofList (decodeFrom none bytes)

def decode? (bytes : List UInt8) : Option String :=
  let s := decode bytes
  if encode s = bytes then some s else none

end Scriptlet.Utf8
