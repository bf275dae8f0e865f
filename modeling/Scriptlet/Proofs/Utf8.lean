import Scriptlet.Text.Utf8

/-!
Decoding inverts encoding: a text enters as octets and comes back as it was, with nothing replaced.
A character of several octets is followed through the pending states one octet at a time.
-/

namespace Scriptlet.Utf8

@[simp] theorem encode_append (s t : String) : encode (s ++ t) = encode s ++ encode t := by
  simp [encode]

def continuation (bits : Nat) : UInt8 := UInt8.ofNat (bits % 64 + 128)

theorem toNat_continuation (bits : Nat) : (continuation bits).toNat = bits % 64 + 128 := by
  rw [continuation, UInt8.toNat_ofNat']
  omega

theorem continuation_bits (bits : Nat) : (continuation bits &&& 0x3f).toNat = bits % 64 := by
  have mask : (bits % 64 + 128) &&& 63 = (bits % 64 + 128) % 64 :=
    Nat.and_two_pow_sub_one_eq_mod _ 6
  rw [UInt8.toNat_and, toNat_continuation]
  exact mask.trans (by omega)

theorem step_continuation {owed : Nat} {low high : UInt8} {bits n : Nat}
    (least : low.toNat ≤ n % 64 + 128) (most : n % 64 + 128 ≤ high.toNat) :
    step (some ⟨owed, low, high, bits⟩) (continuation n) =
      if owed ≤ 1 then ([Char.ofNat (bits * 64 + n % 64)], none)
      else ([], some ⟨owed - 1, 0x80, 0xbf, bits * 64 + n % 64⟩) := by
  have inRange : low ≤ continuation n ∧ continuation n ≤ high := by
    rw [UInt8.le_iff_toNat_le, UInt8.le_iff_toNat_le, toNat_continuation]
    exact ⟨least, most⟩
  simp only [step, inRange, if_pos, and_self, continuation_bits]

theorem decodeFrom_cons (p : Option Pending) (b : UInt8) (bs : List UInt8) :
    decodeFrom p (b :: bs) = (step p b).1 ++ decodeFrom (step p b).2 bs := by
  cases p <;> rfl

/-- An octet between characters that begins one of several octets. -/
theorem decodeFrom_begins {b : UInt8} {p : Pending} (h : lead b = .begins p) (bs : List UInt8) :
    decodeFrom none (b :: bs) = decodeFrom (some p) bs := by
  simp [decodeFrom_cons, step, start, h]

theorem decodeFrom_last {low high : UInt8} {bits n : Nat} (least : low.toNat ≤ n % 64 + 128)
    (most : n % 64 + 128 ≤ high.toNat) (bs : List UInt8) :
    decodeFrom (some ⟨1, low, high, bits⟩) (continuation n :: bs) =
      Char.ofNat (bits * 64 + n % 64) :: decodeFrom none bs := by
  simp [decodeFrom_cons, step_continuation least most]

theorem decodeFrom_more (owed : Nat) {low high : UInt8} {bits n : Nat}
    (least : low.toNat ≤ n % 64 + 128) (most : n % 64 + 128 ≤ high.toNat) (bs : List UInt8) :
    decodeFrom (some ⟨owed + 2, low, high, bits⟩) (continuation n :: bs) =
      decodeFrom (some ⟨owed + 1, 0x80, 0xbf, bits * 64 + n % 64⟩) bs := by
  simp [decodeFrom_cons, step_continuation least most]

/-! What the first octets mean is a finite table. -/

theorem lead_one : ∀ n : Fin 128, lead (UInt8.ofNat n) = .char (Char.ofNat n) := by decide

theorem lead_two : ∀ n : Fin 32, 2 ≤ n.val →
    lead (UInt8.ofNat (n + 0xc0)) = .begins ⟨1, 0x80, 0xbf, n⟩ := by decide

theorem lead_three : ∀ n : Fin 16, lead (UInt8.ofNat (n + 0xe0)) =
    .begins ⟨2, if n.val = 0 then 0xa0 else 0x80, if n.val = 13 then 0x9f else 0xbf, n⟩ := by decide

theorem lead_four : ∀ n : Fin 5, lead (UInt8.ofNat (n + 0xf0)) =
    .begins ⟨3, if n.val = 0 then 0x90 else 0x80, if n.val = 4 then 0x8f else 0xbf, n⟩ := by decide

theorem decode_two {v : Nat} (least : 0x80 ≤ v) (most : v ≤ 0x7ff) (bs : List UInt8) :
    decodeFrom none (UInt8.ofNat (v / 64 % 32 + 0xc0) :: continuation v :: bs) =
      Char.ofNat v :: decodeFrom none bs := by
  have first := lead_two ⟨v / 64, by omega⟩ (by simp only; omega)
  have high : v / 64 % 32 = v / 64 := Nat.mod_eq_of_lt (by omega)
  have value : v / 64 * 64 + v % 64 = v := by omega
  rw [high, decodeFrom_begins first, decodeFrom_last (by simp) (by simp; omega), value]

theorem decode_three {v : Nat} (least : 0x800 ≤ v) (most : v ≤ 0xffff)
    (valid : v < 0xd800 ∨ 0xdfff < v) (bs : List UInt8) :
    decodeFrom none
        (UInt8.ofNat (v / 4096 % 16 + 0xe0) :: continuation (v / 64) :: continuation v :: bs) =
      Char.ofNat v :: decodeFrom none bs := by
  have first : lead (UInt8.ofNat (v / 4096 + 0xe0)) = .begins
      ⟨2, if v / 4096 = 0 then 0xa0 else 0x80, if v / 4096 = 13 then 0x9f else 0xbf, v / 4096⟩ :=
    lead_three ⟨v / 4096, by omega⟩
  have high : v / 4096 % 16 = v / 4096 := Nat.mod_eq_of_lt (by omega)
  have value : (v / 4096 * 64 + v / 64 % 64) * 64 + v % 64 = v := by omega
  rw [high, decodeFrom_begins first, decodeFrom_more 0, decodeFrom_last (by simp)
    (by simp; omega), value]
  · split
    · simp
      omega
    · simp
  · split
    · simp
      omega
    · simp
      omega

theorem decode_four {v : Nat} (least : 0x10000 ≤ v) (most : v < 0x110000) (bs : List UInt8) :
    decodeFrom none (UInt8.ofNat (v / 262144 % 8 + 0xf0) :: continuation (v / 4096) ::
        continuation (v / 64) :: continuation v :: bs) =
      Char.ofNat v :: decodeFrom none bs := by
  have first : lead (UInt8.ofNat (v / 262144 + 0xf0)) = .begins
      ⟨3, if v / 262144 = 0 then 0x90 else 0x80, if v / 262144 = 4 then 0x8f else 0xbf,
        v / 262144⟩ := lead_four ⟨v / 262144, by omega⟩
  have high : v / 262144 % 8 = v / 262144 := Nat.mod_eq_of_lt (by omega)
  have value :
      ((v / 262144 * 64 + v / 4096 % 64) * 64 + v / 64 % 64) * 64 + v % 64 = v := by omega
  rw [high, decodeFrom_begins first, decodeFrom_more 1, decodeFrom_more 0,
    decodeFrom_last (by simp) (by simp; omega), value]
  · simp
  · simp
    omega
  · split
    · simp
      omega
    · simp
  · split
    · simp
      omega
    · simp
      omega

/-- The octets of a character decode to it, whatever follows. -/
theorem decodeFrom_encodeChar (c : Char) (bs : List UInt8) :
    decodeFrom none (String.utf8EncodeChar c ++ bs) = c :: decodeFrom none bs := by
  have valid : c.val.toNat < 0xd800 ∨ 0xdfff < c.val.toNat ∧ c.val.toNat < 0x110000 := c.valid
  have back : Char.ofNat c.val.toNat = c := Char.ofNat_toNat c
  simp only [String.utf8EncodeChar]
  generalize c.val.toNat = v at valid back
  rw [← back]
  split
  · have first := lead_one ⟨v, by omega⟩
    simp [decodeFrom_cons, step, start, first]
  · split
    · exact decode_two (by omega) (by omega) bs
    · split
      · exact decode_three (by omega) (by omega) (by omega) bs
      · exact decode_four (by omega) (by omega) bs

theorem decodeFrom_encode (cs : List Char) (bs : List UInt8) :
    decodeFrom none (cs.flatMap String.utf8EncodeChar ++ bs) = cs ++ decodeFrom none bs := by
  induction cs with
  | nil => rfl
  | cons c cs ih => rw [List.flatMap_cons, List.append_assoc, decodeFrom_encodeChar, ih]; rfl

/-- A text is what its octets decode to. -/
theorem decode_encode (s : String) : decode (encode s) = s := by
  have chars := decodeFrom_encode s.toList []
  rw [List.append_nil] at chars
  rw [decode, encode, chars]
  simp [decodeFrom]

end Scriptlet.Utf8
